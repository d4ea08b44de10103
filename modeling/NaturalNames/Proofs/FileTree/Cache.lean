import NaturalNames.FileTree.Cache
import NaturalNames.Proofs.Backoff.Invariants
import NaturalNames.Proofs.FileTree.Corpus
import NaturalNames.Proofs.Number.TotalOrder
import NaturalNames.Proofs.Training.PrefixCount

/-!
# `NaturalNames.Proofs.FileTree.Cache`: a model is kept or nothing is changed

Whoever asks for a model gets it from a file or from training. The file is trusted: what its bytes
say is the answer, an error included (`loadOrTrain_of_read`). Training that goes well leaves one
file behind (`WritesOnly`), and a failure of any kind leaves nothing (`snd_eq_of_fst_eq_error`).

The two ways meet in the file that training writes. Its bytes are read as the model that was
trained, so whoever asks again gets it, and asks for no corpus any more (`loadOrTrain_of_listing`).
-/

set_option autoImplicit false

namespace NaturalNames

namespace BackoffModel

/-- Training fails at its first guard or at its second one. -/
theorem train_eq_error_iff {machine : Machine} {tokenizer : Tokenizer} {config : ModelConfig}
    {units : List CorpusUnit} {e : Error} :
    train machine tokenizer config units = .error e ↔
      config.validate = .error e ∨
        config.validate = .ok () ∧ units = [] ∧ e = .emptyCorpus := by
  cases hconfig : config.validate with
  | error e' =>
    rw [train, hconfig]
    simp [bind, Except.bind]
  | ok _ =>
    by_cases hunits : units = []
    · rw [train, hconfig, hunits]
      show Except.error Error.emptyCorpus = Except.error e ↔ _
      simp [eq_comm]
    · rw [Training.train_eq_inOneGo machine tokenizer hconfig hunits]
      simp [hunits]

/-- A model from a configuration equals itself, as its factor is a number. -/
theorem Obtained.beq_self {config : ModelConfig} {model : BackoffModel}
    (h : Obtained config model) : (model == model) = true := by
  have hfactor := Number.isNaN_of_le (Number.float_le_of_lt h.wellFormed.factor_mem.1)
  rw [BackoffModel.beq_self, hfactor.2]
  rfl

end BackoffModel

namespace FileTree

variable {tree : FileTree} {cache directory extension : String} {place : Path}
  {bytes : List UInt8} {machine : Machine} {tokenizer : Tokenizer} {config : ModelConfig}

/-! ### Writing one file -/

/-- A path is read if it leads to a place with a file. -/
theorem read_eq_ok_iff :
    tree.read cache = .ok bytes ↔
      ∃ place, tree.resolve cache = some place ∧ tree.files.get? place = some bytes := by
  rw [← Option.bind_eq_some_iff, read]
  cases (tree.resolve cache).bind tree.files.get? <;> simp

/-- What can be read is there. -/
theorem isPresent_of_read (h : tree.read cache = .ok bytes) : tree.isPresent cache = true := by
  obtain ⟨place, hplace, hget⟩ := read_eq_ok_iff.1 h
  rw [isPresent, hplace, Option.any_some, isFile, hget]
  rfl

/-- The only difference between two trees is that one has a file at a place. -/
structure WritesOnly (tree tree' : FileTree) (place : Path) (bytes : List UInt8) : Prop where
  get?_place : tree'.files.get? place = some bytes
  get?_of_ne : ∀ path, path ≠ place → tree'.files.get? path = tree.files.get? path
  directories_eq : tree'.directories = tree.directories
  home_eq : tree'.home = tree.home

/-- Putting bytes at a place changes nothing at any other place. -/
theorem writesOnly_put (tree : FileTree) (place : Path) (bytes : List UInt8) :
    WritesOnly tree (tree.put place bytes) place bytes where
  get?_place := by
    rw [put, SortedMap.insert, SortedMap.get?_alter, if_pos rfl]
  get?_of_ne := by
    intro path hne
    rw [put, SortedMap.insert, SortedMap.get?_alter, if_neg hne]
  directories_eq := rfl
  home_eq := rfl

/-- Directories decide where a path leads, and files do not. -/
theorem resolve_put (tree : FileTree) (place : Path) (bytes : List UInt8) (text : String) :
    (tree.put place bytes).resolve text = tree.resolve text := rfl

/-- What was put at a place is read from it. -/
theorem read_put (h : tree.resolve cache = some place) (bytes : List UInt8) :
    (tree.put place bytes).read cache = .ok bytes :=
  read_eq_ok_iff.2 ⟨place, (tree.resolve_put place bytes cache).trans h,
    (tree.writesOnly_put place bytes).get?_place⟩

/-- A model is saved where its path leads to a place. -/
theorem saveModel_eq_ok (h : tree.resolve cache = some place)
    (habsent : tree.isPresent cache = false) (model : BackoffModel) :
    tree.saveModel cache model = .ok (tree.put place model.toBytes) := by
  rw [isPresent, h, Option.any_some, Bool.or_eq_false_iff] at habsent
  rw [saveModel, write, h]
  exact if_neg (Bool.eq_false_iff.1 habsent.2)

/-- A model is not saved where its path leads nowhere. -/
theorem saveModel_eq_error (h : tree.resolve cache = none) (model : BackoffModel) :
    tree.saveModel cache model = .error .io := by
  rw [saveModel, write, h]

/-! ### Training and saving -/

/-- The first step that fails is the one that is told of. -/
theorem trainAndSave_eq_error_iff {e : Error} :
    tree.trainAndSave machine tokenizer directory extension cache config = .error e ↔
      tree.readCorpus directory extension = .error e ∨
      ∃ units, tree.readCorpus directory extension = .ok units ∧
        (BackoffModel.train machine tokenizer config units = .error e ∨
          ∃ outcome, BackoffModel.train machine tokenizer config units = .ok outcome ∧
            tree.saveModel cache outcome.model = .error e) := by
  -- Nothing fails any more once the model is saved.
  have hlast : ∀ outcome : TrainingOutcome,
      (tree.saveModel cache outcome.model >>= fun tree' =>
          (.ok (outcome, tree') : Except Error (TrainingOutcome × FileTree))) = .error e ↔
        tree.saveModel cache outcome.model = .error e := by
    intro outcome
    rw [except_bind_eq_error_iff]
    simp
  simp only [← hlast, ← except_bind_eq_error_iff]
  rfl

/-- Training and saving succeeds if reading the corpus does, and then training, and then saving. -/
theorem trainAndSave_eq_ok_iff {outcome : TrainingOutcome} {tree' : FileTree} :
    tree.trainAndSave machine tokenizer directory extension cache config = .ok (outcome, tree') ↔
      ∃ units, tree.readCorpus directory extension = .ok units ∧
        BackoffModel.train machine tokenizer config units = .ok outcome ∧
        tree.saveModel cache outcome.model = .ok tree' := by
  constructor
  · intro h
    obtain ⟨units, hunits, h⟩ := except_bind_eq_ok_iff.1 h
    obtain ⟨_, htrain, h⟩ := except_bind_eq_ok_iff.1 h
    obtain ⟨_, hsave, h⟩ := except_bind_eq_ok_iff.1 h
    cases h
    exact ⟨units, hunits, htrain, hsave⟩
  · rintro ⟨units, hunits, htrain, hsave⟩
    exact except_bind_eq_ok_iff.2 ⟨units, hunits, except_bind_eq_ok_iff.2
      ⟨outcome, htrain, except_bind_eq_ok_iff.2 ⟨tree', hsave, rfl⟩⟩⟩

/-! ### Asking for a model -/

/-- A file is trusted, whatever else is there. -/
theorem loadOrTrain_of_read (h : tree.read cache = .ok bytes) :
    tree.loadOrTrain machine tokenizer directory extension cache config
      = ((BackoffModel.ofBytes bytes).map fun model => ⟨model, []⟩, tree) := by
  rw [loadOrTrain, if_pos (isPresent_of_read h), loadModel, h]
  rfl

/-- Without a cache, a training that fails gives its error and leaves the files as they were. -/
theorem loadOrTrain_of_trainAndSave_eq_error {e : Error} (habsent : tree.isPresent cache = false)
    (h : tree.trainAndSave machine tokenizer directory extension cache config = .error e) :
    tree.loadOrTrain machine tokenizer directory extension cache config = (.error e, tree) := by
  rw [loadOrTrain, if_neg (Bool.eq_false_iff.1 habsent), h]

/-- Without a cache, a training that succeeds gives its outcome and the files with the model in
them. -/
theorem loadOrTrain_of_trainAndSave {outcome : TrainingOutcome} {tree' : FileTree}
    (habsent : tree.isPresent cache = false)
    (h : tree.trainAndSave machine tokenizer directory extension cache config
      = .ok (outcome, tree')) :
    tree.loadOrTrain machine tokenizer directory extension cache config = (.ok outcome, tree') := by
  rw [loadOrTrain, if_neg (Bool.eq_false_iff.1 habsent), h]

/-- A model that stands at the place in whatever listing is what everybody gets. -/
theorem loadOrTrain_of_listing {model : BackoffModel} (hmodel : model.Representable)
    (hplace : tree.resolve cache = some place) {ids : List (String × TokenId)}
    (hids : ids.Perm model.vocabulary.ids.entries) {counts : CountTrie}
    (hcounts : CountTrie.Listing model.counts counts) {tree' : FileTree}
    (htree' : tree' = tree.put place
      (BackoffModel.bytesOf model.order model.factor ids model.vocabulary.tokens counts)) :
    tree'.loadOrTrain machine tokenizer directory extension cache config
      = (.ok ⟨model, []⟩, tree') := by
  have hbytes := (BackoffModel.isBlob_bytesOf hmodel hids hcounts).ofBytes_append []
  rw [List.append_nil] at hbytes
  rw [htree', loadOrTrain_of_read (read_put hplace _), hbytes]
  rfl

/-- A failure leaves the tree as it is. -/
theorem snd_eq_of_fst_eq_error {e : Error}
    (h : (tree.loadOrTrain machine tokenizer directory extension cache config).1 = .error e) :
    (tree.loadOrTrain machine tokenizer directory extension cache config).2 = tree := by
  rw [loadOrTrain] at h ⊢
  split
  · rfl
  next hpresent =>
    rw [if_neg hpresent] at h
    cases htrain : tree.trainAndSave machine tokenizer directory extension cache config with
    | error e => rfl
    | ok result =>
      rw [htrain] at h
      cases h

/-! ### All or nothing -/

/-- The model of a training is kept at a place, and whoever asks again gets it from there. -/
structure KeepsModel (tree : FileTree) (cache : String) (place : Path) (config : ModelConfig)
    (model : BackoffModel) : Prop where
  writesOnly : WritesOnly tree (tree.put place model.toBytes) place model.toBytes
  beq_self : (model == model) = true
  /-- The numbers of the model and the lengths of its texts have to fit their widths. Nothing else
  that is asked with matters, nor does the order in which the model was listed. -/
  loadOrTrain_again : config.order < 2 ^ 64 → model.vocabulary.size ≤ 2 ^ 32 →
    (∀ token ∈ model.vocabulary.tokens, token.utf8ByteSize < 2 ^ 64) →
    model.counts.total < 2 ^ 64 →
    ∀ ids : List (String × TokenId), ids.Perm model.vocabulary.ids.entries →
    ∀ counts : CountTrie, CountTrie.Listing model.counts counts →
    ∀ tree', tree' = tree.put place
      (BackoffModel.bytesOf model.order model.factor ids model.vocabulary.tokens counts) →
    ∀ (machine : Machine) (tokenizer : Tokenizer) (directory extension : String)
      (config' : ModelConfig),
      tree'.loadOrTrain machine tokenizer directory extension cache config'
        = (.ok ⟨model, []⟩, tree')

/-- A model that was put at the place of the cache is found there by the next request. -/
theorem keepsModel {model : BackoffModel} (hmodel : BackoffModel.Obtained config model)
    (hplace : tree.resolve cache = some place) : KeepsModel tree cache place config model where
  writesOnly := tree.writesOnly_put place model.toBytes
  beq_self := hmodel.beq_self
  loadOrTrain_again := by
    intro horder hsize htokens htotal ids hids counts hcounts tree' htree' _ _ _ _ _
    exact loadOrTrain_of_listing (hmodel.wellFormed.representable (hmodel.order_eq ▸ horder) hsize
      htokens htotal) hplace hids hcounts htree'

/-- **A model is cached as a whole or not at all.** Take any tree of files and whatever is asked
for. If there is a file at the cache path, its bytes are the answer, be it a model or an error,
with no unit skipped, and the tree stays as it is. It stays so too whenever the answer is an error.

If nothing is there, the corpus is read: the files below the directory with the extension and in
UTF-8, in the order of their paths. That fails if there is no directory, and training fails if the
configuration is not valid or no file is found. Otherwise it completes, if the order and the tokens
of the longest file come to no more than `2 ^ 64`. Where training gives an outcome that is the
answer, and the file at the cache path is the only change. Whoever asks again gets an equal model
and hears of no skipped units, and the tree does not change any more. -/
theorem cache_all_or_nothing (tree : FileTree) (machine : Machine) (tokenizer : Tokenizer)
    (directory extension cache : String) (config : ModelConfig) :
    (∀ bytes, tree.read cache = .ok bytes →
      tree.loadOrTrain machine tokenizer directory extension cache config
        = ((BackoffModel.ofBytes bytes).map fun model => ⟨model, []⟩, tree)) ∧
    (∀ e, (tree.loadOrTrain machine tokenizer directory extension cache config).1 = .error e →
      (tree.loadOrTrain machine tokenizer directory extension cache config).2 = tree) ∧
    (tree.isPresent cache = false → tree.isPresent directory = false →
      tree.loadOrTrain machine tokenizer directory extension cache config = (.error .io, tree)) ∧
    (tree.isPresent cache = false → tree.isPresent directory = true →
      ∃ start walk found, tree.resolve directory = some start ∧ walk.directory = directory ∧
        IsCorpus tree start walk extension found ∧
        tree.readCorpus directory extension = .ok (found.map Prod.snd) ∧
        (∀ e, config.validate = .error e ∨
            config.validate = .ok () ∧ found = [] ∧ e = .emptyCorpus →
          BackoffModel.train machine tokenizer config (found.map Prod.snd) = .error e ∧
          tree.loadOrTrain machine tokenizer directory extension cache config = (.error e, tree)) ∧
        (config.validate = .ok () → found ≠ [] →
          Training.EndsFit tokenizer config (found.map Prod.snd) →
          ∃ outcome, Training.Completes machine tokenizer config (found.map Prod.snd) outcome) ∧
        ∀ outcome,
          BackoffModel.train machine tokenizer config (found.map Prod.snd) = .ok outcome →
          (tree.resolve cache = none →
            tree.loadOrTrain machine tokenizer directory extension cache config
              = (.error .io, tree)) ∧
          ∀ place, tree.resolve cache = some place →
            tree.loadOrTrain machine tokenizer directory extension cache config
              = (.ok outcome, tree.put place outcome.model.toBytes) ∧
            KeepsModel tree cache place config outcome.model) := by
  refine ⟨fun bytes => loadOrTrain_of_read, fun e => snd_eq_of_fst_eq_error,
    fun habsent hnowhere => ?_, fun habsent hpresent => ?_⟩
  · apply loadOrTrain_of_trainAndSave_eq_error habsent
    exact trainAndSave_eq_error_iff.2 (.inl (readCorpus_eq_error_iff.2 ⟨hnowhere, rfl⟩))
  obtain ⟨start, hstart⟩ := exists_resolve_of_isPresent hpresent
  obtain ⟨walk, found, hwalk, hcorpus, hread⟩ := exists_isCorpus hstart hpresent
  refine ⟨start, walk, found, hstart, hwalk, hcorpus, hread, fun e he => ?_,
    fun hconfig hfound hfits => ?_, fun outcome htrain => ⟨fun hnowhere => ?_, fun place hplace =>
      ⟨?_, keepsModel (.trained htrain) hplace⟩⟩⟩
  · have htrain : BackoffModel.train machine tokenizer config (found.map Prod.snd) = .error e :=
      BackoffModel.train_eq_error_iff.2 (by rwa [List.map_eq_nil_iff])
    refine ⟨htrain, loadOrTrain_of_trainAndSave_eq_error habsent ?_⟩
    exact trainAndSave_eq_error_iff.2 (.inr ⟨_, hread, .inl htrain⟩)
  · have hunits : found.map Prod.snd ≠ [] := fun h => hfound (List.map_eq_nil_iff.1 h)
    exact ⟨_, Training.completes_inOneGo machine hconfig hunits hfits⟩
  · -- Behind training only saving can fail, and it does if the cache path leads nowhere.
    apply loadOrTrain_of_trainAndSave_eq_error habsent
    exact trainAndSave_eq_error_iff.2
      (.inr ⟨_, hread, .inr ⟨_, htrain, saveModel_eq_error hnowhere _⟩⟩)
  · apply loadOrTrain_of_trainAndSave habsent
    exact trainAndSave_eq_ok_iff.2 ⟨_, hread, htrain, saveModel_eq_ok hplace habsent _⟩

open Training

/-- A directory with three files of the extension, the second of which has no tokens and the third
no text, and one file of another extension. Training reports the second one, and who asks again is
told of none. With an order of zero nothing is written. -/
theorem cache_all_or_nothing_letters :
    ∃ (tree tree' : FileTree) (outcome : TrainingOutcome),
      tree.isPresent "model" = false ∧ tree.isPresent "src" = true ∧
      tree.loadOrTrain (.inTurn 4) letters "src" "x" "model" pairConfig = (.ok outcome, tree') ∧
      outcome.skipped = [⟨"src/b.x", "Tokenization error: question mark"⟩] ∧
      tree'.read "model" = .ok outcome.model.toBytes ∧
      tree'.files.get? ["src", "a.x"] = tree.files.get? ["src", "a.x"] ∧
      tree'.loadOrTrain (.inTurn 1) letters "nowhere" "y" "model" {}
        = (.ok ⟨outcome.model, []⟩, tree') ∧
      tree.loadOrTrain (.inTurn 4) letters "src" "x" "model" { order := 0 }
        = (.error (.config .orderZero), tree) ∧
      ((tree.put ["model"] [7]).loadOrTrain (.inTurn 4) letters "src" "x" "model" pairConfig).1
        = .error .malformedModel := by
  let tree : FileTree := {
    files := .ofList [(["src", "b.x"], [97, 61, 63]), (["src", "a.x"], [97, 61, 98]),
      (["src", "a.y"], [122]), (["src", "c.x"], [255])]
    directories := .ofList [[], ["src"]]
    home := [] }
  have hplace : tree.resolve "model" = some ["model"] := by decide
  have habsent : tree.isPresent "model" = false := by decide
  have hpresent : tree.isPresent "src" = true := by decide
  have hread : tree.readCorpus "src" "x" = .ok [⟨"src/a.x", "a=b"⟩, ⟨"src/b.x", "a=?"⟩] := by
    decide +kernel
  obtain ⟨-, -, -, htrains⟩ :=
    cache_all_or_nothing tree (.inTurn 4) letters "src" "x" "model" pairConfig
  obtain ⟨start, walk, found, -, -, -, hfound, -, hcompletes, hgiven⟩ := htrains habsent hpresent
  have hunits := Except.ok.inj (hfound.symm.trans hread)
  have hne : found ≠ [] := by
    rintro rfl
    cases hunits
  obtain ⟨outcome, hcompletes⟩ := hcompletes (by decide) hne (hunits ▸ by decide)
  have htrain := hcompletes.train_eq
  obtain ⟨-, hkeeps⟩ := hgiven outcome htrain
  rw [hunits] at htrain
  obtain ⟨-, rfl⟩ := Training.eq_inOneGo_of_train htrain
  -- The next request finds what was written. Its machine, corpus and configuration are others.
  obtain ⟨hresult, hwrites, -, hagain⟩ := hkeeps _ hplace
  have hagain := hagain (by decide) (by decide +kernel) (by decide +kernel) (by decide +kernel)
    _ (.refl _) _ (.refl _) _ rfl
  have hput : ∀ bytes, (tree.put ["model"] bytes).read "model" = .ok bytes := read_put hplace
  obtain ⟨hbytes, -⟩ :=
    cache_all_or_nothing (tree.put ["model"] [7]) (.inTurn 4) letters "src" "x" "model" pairConfig
  obtain ⟨-, -, -, hfails⟩ :=
    cache_all_or_nothing tree (.inTurn 4) letters "src" "x" "model" { order := 0 }
  obtain ⟨_, _, _, -, -, -, -, hfails, -⟩ := hfails habsent hpresent
  refine ⟨tree, _, _, habsent, hpresent, hresult, by decide +kernel, hput _,
    hwrites.get?_of_ne _ (by decide), hagain _ _ _ _ _, (hfails _ (.inl rfl)).2, ?_⟩
  rw [hbytes _ (hput [7])]
  decide +kernel

end FileTree

end NaturalNames
