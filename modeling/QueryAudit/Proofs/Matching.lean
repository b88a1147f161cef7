import Mathlib.Data.List.Forall2
import Mathlib.Data.List.Perm.Subperm
import QueryAudit.Proofs.Tables

/-!
# Matching parts

Two optional things are related if both are there and related, or neither is. Two tables are matched
by their lengths and by looking the entries of the first up in the second; if no name stands twice
in them, every name has related entries in both, or none. Both notions go through functions that may
fail.
-/

namespace QueryAudit

/-! ## Related parts -/

section

variable {α β γ δ : Type}

theorem rel_isSome {r : α → β → Prop} {x : Option α} {y : Option β} (hrel : Option.Rel r x y) :
    x.isSome = y.isSome := by
  cases hrel <;> rfl

theorem rel_some_left {r : α → β → Prop} {a : α} {y : Option β} (hrel : Option.Rel r (some a) y) :
    ∃ b, y = some b ∧ r a b := by
  cases hrel with
  | some hab => exact ⟨_, rfl, hab⟩

theorem rel_refl {r : α → α → Prop} {x : Option α} (h : ∀ a, x = some a → r a a) :
    Option.Rel r x x := by
  cases x with
  | some a => exact .some (h a rfl)
  | none => exact .none

theorem rel_symm {r : α → β → Prop} {s : β → α → Prop} {x : Option α} {y : Option β}
    (hrel : Option.Rel r x y) (h : ∀ a b, x = some a → y = some b → r a b → s b a) :
    Option.Rel s y x := by
  cases hrel with
  | some hab => exact .some (h _ _ rfl rfl hab)
  | none => exact .none

theorem forall₂_imp {r s : α → β → Prop} {items : List α} {others : List β}
    (hrel : List.Forall₂ r items others) (h : ∀ a ∈ items, ∀ b ∈ others, r a b → s a b) :
    List.Forall₂ s items others := by
  induction hrel with
  | nil => exact .nil
  | cons hab _ ih =>
      refine .cons (h _ List.mem_cons_self _ List.mem_cons_self hab) (ih fun a ha b hb => ?_)
      exact h a (List.mem_cons_of_mem _ ha) b (List.mem_cons_of_mem _ hb)

theorem forall₂_trans {r : α → β → Prop} {s : β → γ → Prop} {t : α → γ → Prop} {items : List α}
    {others : List β} {more : List γ} (hrel : List.Forall₂ r items others)
    (hnext : List.Forall₂ s others more) (h : ∀ a ∈ items, ∀ b c, r a b → s b c → t a c) :
    List.Forall₂ t items more := by
  induction hrel generalizing more with
  | nil =>
      cases hnext
      exact .nil
  | cons hab _ ih =>
      cases hnext with
      | cons hbc hrest =>
          refine .cons (h _ List.mem_cons_self _ _ hab hbc) (ih hrest fun a ha => ?_)
          exact h a (List.mem_cons_of_mem _ ha)

end

/-! ## Matching tables -/

namespace NameTable

variable {α β : Type}

/-- A table of as many entries as another that matches each of them by name has no other names. -/
theorem names_perm_of_matched {first : NameTable α} {second : NameTable β}
    (hfirst : (names first).Nodup) (hlength : first.length = second.length)
    (h : ∀ entry ∈ first, ∃ other, find? second entry.1 = some other) :
    (names first).Perm (names second) := by
  have hsubset : names first ⊆ names second := by
    intro name hname
    obtain ⟨entry, hentry, rfl⟩ := List.mem_map.mp hname
    obtain ⟨other, hother⟩ := h entry hentry
    exact List.mem_map_of_mem (mem_of_find? hother)
  refine (List.Nodup.subperm hfirst hsubset).perm_of_length_le ?_
  simp [names, hlength]

/-- Matching the entries of one table with those of another is the same as comparing what the two
have under each name, if no name stands twice. -/
theorem matched_iff {r : Name → α → β → Prop} {first : NameTable α} {second : NameTable β}
    (hfirst : (names first).Nodup) (hsecond : (names second).Nodup) :
    (first.length = second.length ∧
      ∀ entry ∈ first, ∃ other, find? second entry.1 = some other ∧ r entry.1 entry.2 other) ↔
      ∀ name, Option.Rel (r name) (find? first name) (find? second name) := by
  constructor
  · rintro ⟨hlength, hmatch⟩ name
    have hnames := names_perm_of_matched hfirst hlength fun entry hentry =>
      (hmatch entry hentry).imp fun _ => And.left
    cases hfound : find? first name with
    | some entry =>
        obtain ⟨other, hother, hrel⟩ := hmatch (name, entry) (mem_of_find? hfound)
        rw [hother]
        exact .some hrel
    | none =>
        have hmissing : name ∉ names second := by
          rw [← hnames.mem_iff, ← find?_isSome_iff_mem_names, hfound]
          simp
        rw [← find?_isSome_iff_mem_names, Bool.not_eq_true, Option.isSome_eq_false_iff,
          Option.isNone_iff_eq_none] at hmissing
        rw [hmissing]
        exact .none
  · intro h
    have hnames : (names first).Perm (names second) := by
      rw [List.perm_ext_iff_of_nodup hfirst hsecond]
      intro name
      rw [← find?_isSome_iff_mem_names, ← find?_isSome_iff_mem_names]
      rw [rel_isSome (h name)]
    refine ⟨by simpa [names] using hnames.length_eq, fun entry hentry => ?_⟩
    have hrel := h entry.1
    rw [find?_of_mem hfirst hentry] at hrel
    exact rel_some_left hrel

section

variable {change : Name → α → Option β}

end

end NameTable

end QueryAudit
