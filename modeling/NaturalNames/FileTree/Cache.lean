import NaturalNames.Backoff.Blob
import NaturalNames.Backoff.Training
import NaturalNames.FileTree

/-!
# `NaturalNames.FileTree.Cache`: models in files

Training takes time, so a model is kept in a file and read again. `loadOrTrain` trusts whatever
stands in that place: it is read and never compared with the corpus. A file is written only when
training went well.
-/

set_option autoImplicit false

namespace NaturalNames.FileTree

/-- Writes a model to a file. -/
def saveModel (tree : FileTree) (path : String) (model : BackoffModel) : Except Error FileTree :=
  tree.write path model.toBytes

/-- Reads a model from a file. -/
def loadModel (tree : FileTree) (path : String) : Except Error BackoffModel :=
  (tree.read path).bind BackoffModel.ofBytes

/-- Trains a model on the files of a directory and writes it to a file. Gives the tree as it is
afterwards. -/
def trainAndSave (tree : FileTree) (machine : Machine) (tokenizer : Tokenizer)
    (directory extension cache : String) (config : ModelConfig) :
    Except Error (TrainingOutcome × FileTree) := do
  let units ← tree.readCorpus directory extension
  let outcome ← BackoffModel.train machine tokenizer config units
  let tree' ← tree.saveModel cache outcome.model
  return (outcome, tree')

/-- The model in the file at `cache` or, if nothing is there, one trained on a directory and
written to that file. Where something fails the tree stays as it is. -/
def loadOrTrain (tree : FileTree) (machine : Machine) (tokenizer : Tokenizer)
    (directory extension cache : String) (config : ModelConfig) :
    Except Error TrainingOutcome × FileTree :=
  if tree.isPresent cache then
    ((tree.loadModel cache).map fun model => ⟨model, []⟩, tree)
  else
    match tree.trainAndSave machine tokenizer directory extension cache config with
    | .ok (outcome, tree') => (.ok outcome, tree')
    | .error e => (.error e, tree)

end NaturalNames.FileTree
