import Mathlib.Data.Finset.Card
import Mathlib.Data.List.Nodup
import QueryAudit.Proofs.EditDistance

/-!
# Suggestions are the nearest options

The options near a name are sorted by distance and name, so equal ones come to stand side by side
and each is kept once. What is left is the one list of the near options that is strictly in order,
whatever the order of the options was and how often each was given. Its first five are suggested.
-/

namespace QueryAudit.Suggestion

/-! ## The order of options -/

theorem nearer_iff (a b : Nat × String) :
    nearer a b = true ↔ a.1 < b.1 ∨ (a.1 = b.1 ∧ a.2 ≤ b.2) := by
  simp [nearer]

theorem nearer_trans (a b c : Nat × String) (hab : nearer a b) (hbc : nearer b c) :
    nearer a c := by
  rw [nearer_iff] at hab hbc ⊢
  rcases hab with hab | ⟨hab, hnames⟩
  · exact .inl (by omega)
  · rcases hbc with hbc | ⟨hbc, hothers⟩
    · exact .inl (by omega)
    · exact .inr ⟨by omega, String.le_trans hnames hothers⟩

theorem nearer_total (a b : Nat × String) : nearer a b || nearer b a := by
  rw [Bool.or_eq_true, nearer_iff, nearer_iff]
  have hnames := String.le_total a.2 b.2
  by_cases heq : a.1 = b.1
  · exact hnames.imp (fun h => .inr ⟨heq, h⟩) (fun h => .inr ⟨heq.symm, h⟩)
  · have hlt : a.1 < b.1 ∨ b.1 < a.1 := by omega
    exact hlt.imp .inl .inl

theorem nearer_antisymm (a b : Nat × String) (hab : nearer a b) (hba : nearer b a) : a = b := by
  rw [nearer_iff] at hab hba
  have hdistance : a.1 = b.1 := by omega
  have hname : a.2 = b.2 := by
    apply String.le_antisymm
    · exact (hab.resolve_left (by omega)).2
    · exact (hba.resolve_left (by omega)).2
  exact Prod.ext hdistance hname

/-! ## Dropping repeats -/

theorem mem_dropRepeats {α : Type} [DecidableEq α] (items : List α) (item : α) :
    item ∈ dropRepeats items ↔ item ∈ items := by
  fun_induction dropRepeats items with
  | case1 => rfl
  | case2 last => rfl
  | case3 first rest ih =>
      rw [ih, List.mem_cons (a := item) (b := first) (l := first :: rest)]
      exact ⟨.inr, fun h => h.elim (fun heq => heq ▸ List.mem_cons_self) id⟩
  | case4 first second rest hne ih => rw [List.mem_cons, List.mem_cons, ih]

/-- Dropping repeats from a sorted list leaves each item once: equal items stand side by side. -/
theorem pairwise_dropRepeats {α : Type} [DecidableEq α] {le : α → α → Prop}
    (hantisymm : ∀ a b, le a b → le b a → a = b) {items : List α} (h : items.Pairwise le) :
    (dropRepeats items).Pairwise fun a b => le a b ∧ a ≠ b := by
  fun_induction dropRepeats items with
  | case1 => exact .nil
  | case2 last => exact List.pairwise_singleton _ _
  | case3 first rest ih => exact ih (List.pairwise_cons.mp h).2
  | case4 first second rest hne ih =>
      obtain ⟨hfirst, hrest⟩ := List.pairwise_cons.mp h
      refine List.pairwise_cons.mpr ⟨fun item hitem => ?_, ih hrest⟩
      rw [mem_dropRepeats] at hitem
      refine ⟨hfirst item hitem, ?_⟩
      rintro rfl
      -- The item would stand on both sides of the second one, and so be equal to it.
      rcases List.mem_cons.mp hitem with heq | hlater
      · exact hne heq
      · exact hne (hantisymm _ _ (hfirst second List.mem_cons_self)
          ((List.pairwise_cons.mp hrest).1 _ hlater))

/-! ## The near options in order -/

section

variable (lower : String → String) (name : String)

/-- One option comes before another: it is nearer to the name, or as near and less by name. -/
def Before (a b : String) : Prop :=
  distanceBy lower name a < distanceBy lower name b ∨
    (distanceBy lower name a = distanceBy lower name b ∧ a < b)

def ranked (options : List String) : List String :=
  (dropRepeats ((options.filterMap fun option =>
    if distanceBy lower name option ≤ threshold name then
      some (distanceBy lower name option, option)
    else none).mergeSort nearer)).map Prod.snd

variable {lower name}

theorem nearestBy_eq (options : List String) :
    nearestBy lower name options = (ranked lower name options).take 5 :=
  List.map_take

theorem Before.ne {a b : String} (h : Before lower name a b) : a ≠ b := by
  rintro rfl
  rcases h with h | ⟨-, h⟩
  · exact Nat.lt_irrefl _ h
  · exact String.lt_irrefl a h

theorem Before.asymm {a b : String} (h : Before lower name a b) : ¬ Before lower name b a := by
  intro hback
  rcases h with h | ⟨h, hname⟩
  · rcases hback with hback | ⟨hback, -⟩ <;> omega
  · rcases hback with hback | ⟨-, hother⟩
    · omega
    · exact String.lt_asymm hname hother

/-- The items that are sorted are the near options with their distances. -/
theorem mem_sorted {options : List String} {item : Nat × String} :
    item ∈ dropRepeats ((options.filterMap fun option =>
      if distanceBy lower name option ≤ threshold name then
        some (distanceBy lower name option, option)
      else none).mergeSort nearer) ↔
      (item.2 ∈ options ∧ distanceBy lower name item.2 ≤ threshold name) ∧
        item.1 = distanceBy lower name item.2 := by
  rw [mem_dropRepeats, List.mem_mergeSort, List.mem_filterMap]
  constructor
  · rintro ⟨option, hoption, hitem⟩
    split at hitem
    · rename_i hnear
      cases hitem
      exact ⟨⟨hoption, hnear⟩, rfl⟩
    · cases hitem
  · rintro ⟨⟨hoption, hnear⟩, hdistance⟩
    exact ⟨item.2, hoption, by rw [if_pos hnear, ← hdistance]⟩

theorem mem_ranked {options : List String} {option : String} :
    option ∈ ranked lower name options ↔
      option ∈ options ∧ distanceBy lower name option ≤ threshold name := by
  constructor
  · intro h
    obtain ⟨item, hitem, rfl⟩ := List.mem_map.mp h
    exact (mem_sorted.mp hitem).1
  · intro h
    exact List.mem_map.mpr ⟨(distanceBy lower name option, option), mem_sorted.mpr ⟨h, rfl⟩, rfl⟩

theorem pairwise_ranked (options : List String) :
    (ranked lower name options).Pairwise (Before lower name) := by
  refine List.pairwise_map.mpr (List.Pairwise.imp_of_mem ?_
    (pairwise_dropRepeats nearer_antisymm (List.pairwise_mergeSort nearer_trans nearer_total _)))
  rintro a b ha hb ⟨hnearer, hne⟩
  obtain ⟨-, ha⟩ := mem_sorted.mp ha
  obtain ⟨-, hb⟩ := mem_sorted.mp hb
  rw [nearer_iff, ha, hb] at hnearer
  refine hnearer.imp_right fun ⟨hdistance, hle⟩ => ⟨hdistance, ?_⟩
  rw [← String.not_le]
  intro hback
  exact hne (Prod.ext (by rw [ha, hb, hdistance]) (String.le_antisymm hle hback))

theorem nodup_ranked (options : List String) : (ranked lower name options).Nodup :=
  (pairwise_ranked options).imp Before.ne

theorem length_ranked (options : List String) :
    (ranked lower name options).length = (options.filter fun option =>
      distanceBy lower name option ≤ threshold name).toFinset.card := by
  rw [← List.toFinset_card_of_nodup (nodup_ranked options)]
  congr 1
  ext option
  simp [mem_ranked]

/-- There is only one list of the near options in order, whatever the order of the options was and
however often each of them was given. -/
theorem ranked_eq_of_mem_iff {first second : List String}
    (h : ∀ option, option ∈ first ↔ option ∈ second) :
    ranked lower name first = ranked lower name second := by
  have hperm : (ranked lower name first).Perm (ranked lower name second) := by
    rw [List.perm_ext_iff_of_nodup (nodup_ranked first) (nodup_ranked second)]
    intro option
    rw [mem_ranked, mem_ranked, h]
  exact hperm.eq_of_pairwise (fun a b _ _ hab hba => absurd hba hab.asymm) (pairwise_ranked first)
    (pairwise_ranked second)

theorem nearestBy_eq_of_mem_iff {first second : List String}
    (h : ∀ option, option ∈ first ↔ option ∈ second) :
    nearestBy lower name first = nearestBy lower name second := by
  rw [nearestBy_eq, nearestBy_eq, ranked_eq_of_mem_iff h]

theorem nearestBy_eq_nil_iff {options : List String} :
    nearestBy lower name options = [] ↔
      ∀ option ∈ options, threshold name < distanceBy lower name option := by
  have htake : (ranked lower name options).take 5 = [] ↔ ranked lower name options = [] := by simp
  rw [nearestBy_eq, htake, List.eq_nil_iff_forall_not_mem]
  refine forall_congr' fun option => ?_
  rw [mem_ranked, not_and, Nat.not_le]

/-- What is not suggested comes after all that is. -/
theorem before_of_not_mem_nearestBy {options : List String} {option other : String}
    (hoption : option ∈ nearestBy lower name options) (hother : other ∈ options)
    (hnear : distanceBy lower name other ≤ threshold name)
    (hleft : other ∉ nearestBy lower name options) : Before lower name option other := by
  rw [nearestBy_eq] at hoption hleft
  have hordered : (ranked lower name options).Pairwise (Before lower name) :=
    pairwise_ranked options
  rw [← List.take_append_drop 5 (ranked lower name options)] at hordered
  refine (List.pairwise_append.mp hordered).2.2 option hoption other ?_
  have hmem := mem_ranked.mpr ⟨hother, hnear⟩
  rw [← List.take_append_drop 5 (ranked lower name options)] at hmem
  exact (List.mem_append.mp hmem).resolve_left hleft

end

/-! ## Questions -/

/-- Commas stand between the options, and `or` before the last one. -/
theorem listed_concat (first : String) (rest : List String) (last : String) :
    listed (first :: rest ++ [last]) =
      ",".intercalate ((first :: rest).map quote) ++ " or" ++ quote last := by
  induction rest generalizing first with
  | nil => rfl
  | cons second rest ih =>
      have hlisted : listed (first :: (second :: rest ++ [last])) =
          quote first ++ "," ++ listed (second :: rest ++ [last]) := by
        cases rest <;> rfl
      rw [List.cons_append, hlisted, ih]
      simp only [List.map_cons, String.intercalate_cons_cons, String.append_assoc]

theorem question?_eq_none_iff {opening : String} {options : List String} :
    question? opening options = none ↔ options = [] := by
  cases options <;> simp [question?]

theorem question?_eq_some_iff {opening : String} {options : List String} {text : String} :
    question? opening options = some text ↔
      options ≠ [] ∧ text = opening ++ listed options ++ "?" := by
  cases options <;> simp [question?, eq_comm]

/-- What is suggested for a name, whatever brings texts into lower case. There is no suggestion just
if no option is near enough; an option that differs in letter case alone counts as one edit away.
Otherwise the question lists the first five of the different options that are near enough, or all if
there are no more, in the order of their distances and names, so what is not listed comes after all
that is. Neither the order of the options nor repeating them changes it. A message about a name goes
on with the question that opens with `Did you mean`, if there is one. -/
theorem suggestion_nearest (lower : String → String) (opening name : String)
    (options : List String) :
    (suggestion? lower opening options name = none ↔
      ∀ option ∈ options, threshold name < distanceBy lower name option) ∧
    (∀ text, suggestion? lower opening options name = some text → ∃ chosen,
      text = opening ++ listed chosen ++ "?" ∧ chosen.Nodup ∧
      chosen.length = min 5 (options.filter fun option =>
        distanceBy lower name option ≤ threshold name).toFinset.card ∧
      chosen.Pairwise (Before lower name) ∧
      (∀ option ∈ chosen, option ∈ options ∧ distanceBy lower name option ≤ threshold name) ∧
      ∀ option ∈ chosen, ∀ other ∈ options, distanceBy lower name other ≤ threshold name →
        other ∉ chosen → Before lower name option other) ∧
    (∀ others : List String, (∀ option, option ∈ others ↔ option ∈ options) →
      suggestion? lower opening others name = suggestion? lower opening options name) ∧
    (threshold name = 2 * name.length / 5 + 1 ∧ ∀ option, distanceBy lower name option =
      if lower option = lower name then 1 else wordDistance name.toList option.toList) ∧
    ((∀ only, listed [only] = quote only) ∧
      ∀ first rest last, listed (first :: rest ++ [last]) =
        ",".intercalate ((first :: rest).map quote) ++ " or" ++ quote last) ∧
    question (nearest name options) =
      (suggestion? lowercase " Did you mean" options name).getD "" := by
  refine ⟨?_, ?_, ?_, ⟨?_, ?_⟩, ⟨fun _ => rfl, listed_concat⟩, rfl⟩
  · rw [suggestion?, question?_eq_none_iff, nearestBy_eq_nil_iff]
  · intro text htext
    rw [suggestion?, question?_eq_some_iff] at htext
    refine ⟨nearestBy lower name options, htext.2, ?_, ?_, ?_, ?_, ?_⟩
    · rw [nearestBy_eq]
      exact (nodup_ranked options).sublist (List.take_sublist _ _)
    · rw [nearestBy_eq, List.length_take, length_ranked]
    · rw [nearestBy_eq]
      exact (pairwise_ranked options).take
    · intro option hoption
      rw [nearestBy_eq] at hoption
      exact mem_ranked.mp (List.mem_of_mem_take hoption)
    · intro option hoption other hother hnear
      exact before_of_not_mem_nearestBy hoption hother hnear
  · intro others h
    rw [suggestion?, suggestion?, nearestBy_eq_of_mem_iff h]
  · rw [threshold, Nat.mul_comm]
  · intro option
    rw [distanceBy, editDistance_eq]

end QueryAudit.Suggestion
