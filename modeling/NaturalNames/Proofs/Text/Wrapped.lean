import NaturalNames.Proofs.Text.Substring

/-!
# `NaturalNames.Proofs.Text.Wrapped`: names between two `%`

A name can be replaced in a text in two ways: wherever it stands, and where it stands between two
`%`. `replaceAll_eq_wrap` gives conditions under which this is the same. The name is nowhere without
its `%` (`OnlyWrapped`), and no `%` belongs to two names (`Apart`): as occurrences are replaced from
left to right and do not overlap, of two names that share a `%` only the first is replaced.

A junk name is one that is not in the text yet.

* `replaceAll_fresh`: what was replaced by the junk name is found again by looking for it.
* `not_infix_replaceAll_wrap`: if names are apart, none is left between two `%`.
-/

set_option autoImplicit false

namespace NaturalNames.Text

/-- A text between two `%`. -/
def wrap (text : List Char) : List Char := '%' :: (text ++ ['%'])

/-- A wrapped text is not empty. -/
theorem wrap_ne_nil (text : List Char) : wrap text ≠ [] := List.cons_ne_nil _ _

/-- Wrapping makes a text longer by two. -/
theorem length_wrap (text : List Char) : (wrap text).length = text.length + 2 := by
  simp [wrap]

/-- A wrapped text inside another one, seen from the text. -/
theorem append_wrap_append (before text behind : List Char) :
    before ++ wrap text ++ behind = (before ++ ['%']) ++ (text ++ '%' :: behind) := by
  simp [wrap]

/-- Where a wrapped name stands, the name stands. -/
theorem infix_of_infix_wrap {name text : List Char} (h : wrap name <:+: text) : name <:+: text :=
  List.IsInfix.trans ⟨['%'], ['%'], by simp [wrap]⟩ h

/-- Wherever the name stands, it stands between two `%`. -/
def OnlyWrapped (name text : List Char) : Prop :=
  ∀ i < text.length, name <+: text.drop i → 0 < i ∧ wrap name <+: text.drop (i - 1)

/-- No two wrapped names share a `%` or more. -/
def Apart (name text : List Char) : Prop :=
  ∀ j < text.length, ∀ i < j, wrap name <+: text.drop i → wrap name <+: text.drop j →
    i + (wrap name).length ≤ j

instance (name text : List Char) : Decidable (OnlyWrapped name text) :=
  inferInstanceAs (Decidable (∀ i < text.length, _))

instance (name text : List Char) : Decidable (Apart name text) :=
  inferInstanceAs (Decidable (∀ j < text.length, ∀ i < j, _))

-- A name inside another word, and two names that share a `%`.
example : ¬ OnlyWrapped ['x'] "max%x%".toList ∧ ¬ Apart ['x'] "%x%x%".toList := by decide

variable {name junk new text before behind : List Char}

/-! ### Behind the first wrapped name -/

/-- Wrapped names that are apart are so in every last part of the text. -/
theorem Apart.drop (h : Apart name text) (n : Nat) : Apart name (text.drop n) := by
  intro j hj i hij hfirst hsecond
  rw [List.length_drop] at hj
  rw [List.drop_drop] at hfirst hsecond
  have := h (n + j) (by omega) (n + i) (by omega) hfirst hsecond
  omega

section

variable (hcut : splitFirst (wrap name) text = some (before, behind))

include hcut

/-- Where the parts of a cut are. -/
theorem drop_of_cut : text.drop before.length = wrap name ++ behind ∧
    text.drop (before.length + name.length + 1) = '%' :: behind ∧
    text.drop (before.length + name.length + 2) = behind := by
  obtain ⟨rfl, -⟩ := splitFirst_eq_some_iff.1 hcut
  refine ⟨?_, ?_, ?_⟩
  · simp
  · rw [append_wrap_append, ← List.append_assoc, List.drop_left' (by simp; omega)]
  · rw [List.drop_left' (by simp [length_wrap]; omega)]

/-- The lengths of what a text is cut into add up. -/
theorem length_of_cut : text.length = before.length + name.length + 2 + behind.length := by
  have hlength := congrArg List.length (eq_of_splitFirst hcut)
  simp only [List.length_append, length_wrap] at hlength
  omega

/-- Wrapped names that are apart are so behind a cut. -/
theorem Apart.of_cut (h : Apart name text) : Apart name behind :=
  (drop_of_cut hcut).2.2 ▸ h.drop _

/-- Where names are apart, none begins within another one. -/
theorem Apart.not_prefix_drop (h : Apart name text) {i : Nat} (hi : i ≤ name.length) :
    ¬ wrap name <+: text.drop (before.length + (i + 1)) := by
  intro hprefix
  have hfirst : wrap name <+: text.drop before.length :=
    (drop_of_cut hcut).1 ▸ List.prefix_append _ _
  have hlength := length_of_cut hcut
  have := h _ (by omega) before.length (by omega) hfirst hprefix
  rw [length_wrap] at this
  omega

/-- Behind a cut, too, the name stands between percent signs only. -/
theorem OnlyWrapped.of_cut (h : OnlyWrapped name text) (hapart : Apart name text) :
    OnlyWrapped name behind := by
  obtain ⟨-, -, hbehind⟩ := drop_of_cut hcut
  have hlength := length_of_cut hcut
  intro i hi hname
  rw [← hbehind, List.drop_drop] at hname
  obtain ⟨-, hwrap⟩ := h _ (by omega) hname
  cases i with
  | zero => exact absurd hwrap (hapart.not_prefix_drop hcut (Nat.le_refl _))
  | succ i =>
    rw [← hbehind, List.drop_drop]
    exact ⟨Nat.succ_pos i, hwrap⟩

/-- Of a text in which names are wrapped and apart, the name of the first wrapped one is the first
name, and the `%` behind it begins no other. -/
theorem OnlyWrapped.cut (h : OnlyWrapped name text) (hapart : Apart name text) (hname : name ≠ []) :
    splitFirst name text = some (before ++ ['%'], '%' :: behind) ∧ ¬ name <+: '%' :: behind := by
  obtain ⟨-, hpercent, -⟩ := drop_of_cut hcut
  have hlength := length_of_cut hcut
  have hpos := List.length_pos_iff.2 hname
  obtain ⟨htext, hnone⟩ := splitFirst_eq_some_iff.1 hcut
  constructor
  · -- A name further in front would be wrapped, and the wrapped name would have been cut there.
    refine splitFirst_eq_some_iff.2 ⟨by simp [htext, wrap], ?_⟩
    intro k hk hstart
    rw [List.length_append, List.length_singleton] at hk
    obtain ⟨hk', hwrap⟩ := h k (by omega) hstart
    exact hnone (k - 1) (by omega) hwrap
  · -- A name at the closing `%` would be wrapped as well, inside the wrapped name that was cut.
    intro hstart
    rw [← hpercent] at hstart
    obtain ⟨-, hwrap⟩ := h _ (by omega) hstart
    have hplace : before.length + name.length + 1 - 1 = before.length + (name.length - 1 + 1) := by
      omega
    rw [hplace] at hwrap
    exact hapart.not_prefix_drop hcut (Nat.sub_le _ _) hwrap

end

/-! ### Two ways of replacing -/

/-- Names that are wrapped and apart can be replaced without looking for the `%`. -/
theorem replaceAll_eq_wrap (hname : name ≠ []) (new : List Char) (h : OnlyWrapped name text)
    (hapart : Apart name text) :
    replaceAll name new text = replaceAll (wrap name) (wrap new) text := by
  induction text using cut_induction (wrap_ne_nil name) with
  | uncut text hcut =>
    have huncut : splitFirst name text = none := by
      rw [splitFirst_eq_none_iff]
      rintro ⟨front, back, rfl⟩
      have hstart : name <+: (front ++ name ++ back).drop front.length := by simp
      have hlength := List.length_pos_iff.2 hname
      obtain ⟨-, hwrap⟩ := h front.length (by simp; omega) hstart
      exact splitFirst_eq_none_iff.1 hcut (hwrap.isInfix.trans (List.drop_suffix _ _).isInfix)
    rw [replaceAll_of_uncut hname _ huncut, replaceAll_of_uncut (wrap_ne_nil name) _ hcut]
  | cut text before behind hcut ih =>
    obtain ⟨hcut', hstart⟩ := h.cut hcut hapart hname
    -- The search goes on at the last `%`, where no name begins, and then behind it.
    rw [replaceAll_of_cut hname _ hcut', replaceAll_cons hname _ hstart,
      ih (h.of_cut hcut hapart) (hapart.of_cut hcut),
      replaceAll_of_cut (wrap_ne_nil name) _ hcut]
    simp [wrap]

/-! ### Junk names -/

section

variable (hjunk : '%' ∉ junk)

include hjunk

/-- A name that the text does not have takes the place of another one and is replaced in turn. -/
theorem replaceAll_fresh (hne : junk ≠ []) (hfresh : ¬ junk <:+: text) :
    replaceAll junk new (replaceAll (wrap name) (wrap junk) text)
      = replaceAll (wrap name) (wrap new) text := by
  have hwrap := wrap_ne_nil name
  induction text using cut_induction hwrap with
  | uncut text hcut =>
    rw [replaceAll_of_uncut hwrap _ hcut, replaceAll_of_uncut hwrap _ hcut,
      replaceAll_of_uncut hne _ (splitFirst_eq_none_iff.2 hfresh)]
  | cut text before behind hcut ih =>
    obtain rfl := eq_of_splitFirst hcut
    have hbefore : ¬ junk <:+: before := fun h =>
      hfresh (h.trans ⟨[], wrap name ++ behind, by simp⟩)
    have hbehind : ¬ junk <:+: behind := fun h =>
      hfresh (h.trans ⟨before ++ wrap name, [], by simp⟩)
    rw [replaceAll_of_cut hwrap _ hcut, replaceAll_of_cut hwrap _ hcut]
    -- Neither `%` around the junk name belongs to an occurrence of it.
    calc replaceAll junk new
          (before ++ wrap junk ++ replaceAll (wrap name) (wrap junk) behind)
        = replaceAll junk new
            (before ++ '%' :: (junk ++ '%' :: replaceAll (wrap name) (wrap junk) behind)) := by
          rw [append_wrap_append, List.append_assoc, List.singleton_append]
      _ = before ++ '%' :: (new ++ '%' :: replaceAll (wrap name) (wrap new) behind) := by
          rw [replaceAll_append_cons hne _ hjunk, replaceAll_append_self hne,
            replaceAll_cons hne _ fun h => hne (eq_nil_of_prefix_cons hjunk h), ih hbehind,
            replaceAll_of_uncut hne _ (splitFirst_eq_none_iff.2 hbefore)]
      _ = before ++ wrap new ++ replaceAll (wrap name) (wrap new) behind := by
          rw [append_wrap_append, List.append_assoc, List.singleton_append]

/-- A text that ends with `%` and starts in front of a junk name ends in front of it, if the junk
name is not in it. -/
theorem prefix_of_prefix_append_junk {pat front rest : List Char}
    (hfresh : ¬ junk <:+: pat ++ ['%']) (h : pat ++ ['%'] <+: front ++ (junk ++ rest)) :
    pat ++ ['%'] <+: front := by
  rcases List.prefix_or_prefix_of_prefix h (List.prefix_append front _) with hfront | ⟨tail, htail⟩
  · exact hfront
  · rw [← htail, List.prefix_append_right_inj] at h
    rcases List.prefix_or_prefix_of_prefix h (List.prefix_append junk rest) with hshort | hlong
    · -- The last `%` is that of `front`, or one of the junk name.
      rcases List.eq_nil_or_concat tail with rfl | ⟨tail, c, rfl⟩
      · exact ⟨[], by simpa using htail.symm⟩
      · rw [List.concat_eq_append] at htail hshort
        rw [← List.append_assoc] at htail
        obtain ⟨-, hc⟩ := List.append_inj' htail rfl
        obtain rfl := List.singleton_inj.1 hc
        exact absurd (hshort.subset (by simp)) hjunk
    · exact absurd (hlong.isInfix.trans ⟨front, [], by simpa using htail⟩) hfresh

/-- A text that starts and ends with `%` stands on one side of a junk name that is not in it. -/
theorem infix_or_infix_of_infix_append_junk {pat front rest : List Char}
    (hfresh : ¬ junk <:+: '%' :: pat ++ ['%'])
    (h : '%' :: pat ++ ['%'] <:+: front ++ (junk ++ rest)) :
    '%' :: pat ++ ['%'] <:+: front ∨ '%' :: pat ++ ['%'] <:+: rest := by
  induction front with
  | nil =>
    -- It does not start at a character of the junk name.
    refine .inr ?_
    clear hfresh
    induction junk with
    | nil => exact h
    | cons j junk ih =>
      rw [List.mem_cons, not_or] at hjunk
      rcases List.infix_cons_iff.1 h with hstart | hrest
      · exact absurd (List.cons_prefix_cons.1 hstart).1 hjunk.1
      · exact ih hjunk.2 hrest
  | cons c front ih =>
    rw [List.cons_append] at h
    rcases List.infix_cons_iff.1 h with hstart | hrest
    · rw [← List.cons_append] at hstart
      exact .inl (prefix_of_prefix_append_junk hjunk hfresh hstart).isInfix
    · exact (ih hrest).imp_left List.infix_cons

/-- Nothing is left of what is replaced together with its `%` by a junk name that is not in it. -/
theorem not_infix_replaceAll_junk (hfresh : ¬ junk <:+: wrap name) (text : List Char) :
    ¬ wrap name <:+: replaceAll (wrap name) junk text := by
  have hwrap := wrap_ne_nil name
  induction text using cut_induction hwrap with
  | uncut text hcut =>
    rw [replaceAll_of_uncut hwrap _ hcut]
    exact splitFirst_eq_none_iff.1 hcut
  | cut text before behind hcut ih =>
    rw [replaceAll_of_cut hwrap _ hcut, List.append_assoc]
    intro h
    rcases infix_or_infix_of_infix_append_junk hjunk hfresh h with hbefore | hbehind
    · exact not_infix_of_splitFirst hwrap hcut hbefore
    · exact ih hbehind

/-- What ends with `%` at the beginning of a text is there before a junk name is put into it. -/
theorem prefix_of_prefix_replaceAll {pat : List Char} (hfresh : ¬ junk <:+: pat ++ ['%'])
    (h : pat ++ ['%'] <+: replaceAll (wrap name) (wrap junk) text) : pat ++ ['%'] <+: text := by
  cases hcut : splitFirst (wrap name) text with
  | none => rwa [replaceAll_of_uncut (wrap_ne_nil name) _ hcut] at h
  | some cut =>
    obtain ⟨before, behind⟩ := cut
    rw [replaceAll_of_cut (wrap_ne_nil name) _ hcut, append_wrap_append] at h
    refine (prefix_of_prefix_append_junk hjunk hfresh h).trans ?_
    rw [eq_of_splitFirst hcut, append_wrap_append]
    exact List.prefix_append _ _

/-- **Nothing is left between two `%`** if names are apart: a junk name that is not in the name does
not make a new one with what stands around it. -/
theorem not_infix_replaceAll_wrap (hfresh : ¬ junk <:+: name) (hapart : Apart name text) :
    ¬ wrap name <:+: replaceAll (wrap name) (wrap junk) text := by
  have hwrap := wrap_ne_nil name
  have hname : ¬ junk <:+: name ++ ['%'] := fun h =>
    (infix_or_infix_of_infix_append_cons hjunk h).elim hfresh fun hnil =>
      hfresh (by simp [List.infix_nil.1 hnil])
  have hwrapped : ¬ junk <:+: '%' :: name ++ ['%'] := by
    intro h
    rcases List.infix_cons_iff.1 h with hstart | hstands
    · exact hfresh (by simp [eq_nil_of_prefix_cons hjunk hstart])
    · exact hname hstands
  induction text using cut_induction hwrap with
  | uncut text hcut =>
    rw [replaceAll_of_uncut hwrap _ hcut]
    exact splitFirst_eq_none_iff.1 hcut
  | cut text before behind hcut ih =>
    obtain ⟨htext, hnone⟩ := splitFirst_eq_some_iff.1 hcut
    rw [replaceAll_of_cut hwrap _ hcut, append_wrap_append]
    intro h
    rcases infix_or_infix_of_infix_append_junk hjunk hwrapped h with hstands | hstands
    · -- It would be one in front of the first.
      obtain ⟨front, back, hbefore⟩ := hstands
      have hlength := congrArg List.length hbefore
      simp only [List.length_append, List.length_cons, List.length_nil] at hlength
      refine hnone front.length (by omega) ?_
      have hfront : text = front ++ (wrap name ++ (back ++ (name ++ '%' :: behind))) := by
        calc text = (before ++ ['%']) ++ (name ++ '%' :: behind) := by
              rw [htext, append_wrap_append]
          _ = front ++ (wrap name ++ (back ++ (name ++ '%' :: behind))) := by
            simp [← hbefore, wrap]
      rw [hfront, List.drop_left]
      exact List.prefix_append _ _
    · rcases List.infix_cons_iff.1 hstands with hstart | hrest
      · -- It would begin with the last `%` of the one that was replaced.
        have hbehind := prefix_of_prefix_replaceAll hjunk hname (List.cons_prefix_cons.1 hstart).2
        refine hapart.not_prefix_drop hcut (Nat.le_refl _) ?_
        rw [← Nat.add_assoc, (drop_of_cut hcut).2.1]
        exact List.cons_prefix_cons.2 ⟨rfl, hbehind⟩
      · exact ih (hapart.of_cut hcut) hrest

end

end NaturalNames.Text
