import Mathlib.Order.Bounds.Basic
import QueryAudit.Suggestion

/-!
# Edit distance

The edit distance of two words is the least number of characters to put in, take out or replace
until one word is the other. It has a recursion over both words from their fronts. The loop over two
rows goes through the words from their ends instead: after some characters of the first word, a row
holds the distances from what was read, backwards, to the beginnings of the second word, backwards.
The two meet because a word can be edited backwards as well.
-/

namespace QueryAudit.Suggestion

/-! ## Edits -/

/-- One edit of a word: a character is put in, taken out or replaced. -/
inductive Edit : List Char → List Char → Prop
  | insert (before after : List Char) (c : Char) : Edit (before ++ after) (before ++ c :: after)
  | delete (before after : List Char) (c : Char) : Edit (before ++ c :: after) (before ++ after)
  | replace (before after : List Char) (c d : Char) :
      Edit (before ++ c :: after) (before ++ d :: after)

/-- A number of edits, one after the other, turn one word into another. -/
inductive Edits : Nat → List Char → List Char → Prop
  | none (word : List Char) : Edits 0 word word
  | more {n : Nat} {a b c : List Char} (first : Edit a b) (rest : Edits n b c) : Edits (n + 1) a c

theorem Edit.cons {a b : List Char} (h : Edit a b) (c : Char) : Edit (c :: a) (c :: b) := by
  cases h with
  | insert before after d => exact .insert (c :: before) after d
  | delete before after d => exact .delete (c :: before) after d
  | replace before after d e => exact .replace (c :: before) after d e

theorem Edit.reverse {a b : List Char} (h : Edit a b) : Edit a.reverse b.reverse := by
  cases h with
  | insert before after c => simpa using Edit.insert after.reverse before.reverse c
  | delete before after c => simpa using Edit.delete after.reverse before.reverse c
  | replace before after c d => simpa using Edit.replace after.reverse before.reverse c d

theorem Edits.cons {n : Nat} {a b : List Char} (h : Edits n a b) (c : Char) :
    Edits n (c :: a) (c :: b) := by
  induction h with
  | none word => exact .none _
  | more first rest ih => exact .more (first.cons c) ih

theorem Edits.reverse {n : Nat} {a b : List Char} (h : Edits n a b) :
    Edits n a.reverse b.reverse := by
  induction h with
  | none word => exact .none _
  | more first rest ih => exact .more first.reverse ih

theorem Edits.eq_of_zero {a b : List Char} (h : Edits 0 a b) : a = b := by
  cases h
  rfl

/-! ## The recursion -/

/-- The edit distance of two words, by recursion: the first characters are matched, at no cost if
they are equal, or the first one is taken out, or the second one put in. -/
def wordDistance : List Char → List Char → Nat
  | [], b => b.length
  | _ :: a, [] => a.length + 1
  | c :: a, d :: b =>
      min (min (wordDistance a b + if c = d then 0 else 1) (wordDistance a (d :: b) + 1))
        (wordDistance (c :: a) b + 1)
termination_by a b => a.length + b.length

@[simp] theorem wordDistance_nil_left (b : List Char) : wordDistance [] b = b.length := by
  rw [wordDistance]

@[simp] theorem wordDistance_nil_right (a : List Char) : wordDistance a [] = a.length := by
  cases a with
  | nil => simp
  | cons c a => simp [wordDistance]

theorem wordDistance_cons_cons (c d : Char) (a b : List Char) :
    wordDistance (c :: a) (d :: b) =
      min (min (wordDistance a b + if c = d then 0 else 1) (wordDistance a (d :: b) + 1))
        (wordDistance (c :: a) b + 1) := by
  rw [wordDistance]

theorem wordDistance_match_le (c d : Char) (a b : List Char) :
    wordDistance (c :: a) (d :: b) ≤ wordDistance a b + if c = d then 0 else 1 := by
  rw [wordDistance_cons_cons]
  omega

theorem wordDistance_delete_le (c : Char) (a b : List Char) :
    wordDistance (c :: a) b ≤ wordDistance a b + 1 := by
  cases b with
  | nil => simp
  | cons d b =>
      rw [wordDistance_cons_cons]
      omega

theorem wordDistance_insert_le (d : Char) (a b : List Char) :
    wordDistance a (d :: b) ≤ wordDistance a b + 1 := by
  cases a with
  | nil => simp
  | cons c a =>
      rw [wordDistance_cons_cons]
      omega

theorem wordDistance_self (a : List Char) : wordDistance a a = 0 := by
  induction a with
  | nil => simp
  | cons c a ih =>
      have hle := wordDistance_match_le c c a a
      rw [ih, if_pos rfl] at hle
      omega

theorem wordDistance_comm (a b : List Char) : wordDistance a b = wordDistance b a := by
  induction a generalizing b with
  | nil => simp
  | cons c a ih =>
      induction b with
      | nil => simp
      | cons d b ihb =>
          rw [wordDistance_cons_cons, wordDistance_cons_cons, ih b, ih (d :: b), ihb]
          simp only [eq_comm (a := c)]
          omega

/-- The distance is one of the three that the recursion compares. -/
theorem wordDistance_cases (c d : Char) (a b : List Char) :
    wordDistance (c :: a) (d :: b) = wordDistance a b + (if c = d then 0 else 1) ∨
      wordDistance (c :: a) (d :: b) = wordDistance a (d :: b) + 1 ∨
      wordDistance (c :: a) (d :: b) = wordDistance (c :: a) b + 1 := by
  rw [wordDistance_cons_cons]
  omega

theorem wordDistance_le_lengths (a b : List Char) : wordDistance a b ≤ a.length + b.length := by
  induction a with
  | nil => simp
  | cons c a ih =>
      have hdelete := wordDistance_delete_le c a b
      rw [List.length_cons]
      omega

theorem length_le_wordDistance (a b : List Char) : b.length ≤ a.length + wordDistance a b := by
  induction a generalizing b with
  | nil => simp
  | cons c a ih =>
      induction b with
      | nil => simp
      | cons d b ihb =>
          have hboth := ih b
          have hfirst := ih (d :: b)
          rw [List.length_cons] at ihb hfirst ⊢
          rw [List.length_cons]
          rcases wordDistance_cases c d a b with h | h | h <;> omega

theorem mismatch_triangle (x y z : Char) :
    (if x = z then 0 else 1) ≤ (if x = y then 0 else 1) + if y = z then 0 else 1 := by
  by_cases hxy : x = y
  · rw [hxy, if_pos rfl, Nat.zero_add]
  · rw [if_neg hxy]
    split <;> omega

/-- The induction follows the three words. What is done with the first characters on the way from
the first word to the second and on to the third says what to do with them on the direct way. -/
theorem wordDistance_triangle (a b c : List Char) :
    wordDistance a c ≤ wordDistance a b + wordDistance b c := by
  induction a generalizing b c with
  | nil =>
      rw [wordDistance_nil_left, wordDistance_nil_left]
      exact length_le_wordDistance b c
  | cons x a iha =>
      induction b generalizing c with
      | nil => simpa using wordDistance_le_lengths (x :: a) c
      | cons y b ihb =>
          induction c with
          | nil =>
              rw [wordDistance_nil_right, wordDistance_nil_right, wordDistance_comm, Nat.add_comm]
              exact length_le_wordDistance (y :: b) (x :: a)
          | cons z c ihc =>
              have hmatch := wordDistance_match_le x z a c
              have hdelete := wordDistance_delete_le x a (z :: c)
              have hinsert := wordDistance_insert_le z (x :: a) c
              rcases wordDistance_cases x y a b with hab | hab | hab
              · rcases wordDistance_cases y z b c with hbc | hbc | hbc
                · have hrest := iha b c
                  have hcost := mismatch_triangle x y z
                  omega
                · have hrest := iha b (z :: c)
                  omega
                · omega
              · have hrest := iha (y :: b) (z :: c)
                omega
              · rcases wordDistance_cases y z b c with hbc | hbc | hbc
                · have hrest := ihb c
                  omega
                · have hrest := ihb (z :: c)
                  omega
                · omega

/-! ## The least number of edits -/

theorem wordDistance_append_le (before a b : List Char) :
    wordDistance (before ++ a) (before ++ b) ≤ wordDistance a b := by
  induction before with
  | nil => exact Nat.le_refl _
  | cons c before ih =>
      have hmatch := wordDistance_match_le c c (before ++ a) (before ++ b)
      rw [if_pos rfl] at hmatch
      exact hmatch.trans ih

theorem Edit.wordDistance_le {a b : List Char} (h : Edit a b) : wordDistance a b ≤ 1 := by
  cases h with
  | insert before after c =>
      refine (wordDistance_append_le before _ _).trans ((wordDistance_insert_le c _ _).trans ?_)
      rw [wordDistance_self]
  | delete before after c =>
      refine (wordDistance_append_le before _ _).trans ((wordDistance_delete_le c _ _).trans ?_)
      rw [wordDistance_self]
  | replace before after c d =>
      refine (wordDistance_append_le before _ _).trans ((wordDistance_match_le c d _ _).trans ?_)
      rw [wordDistance_self]
      split <;> omega

theorem Edits.wordDistance_le {n : Nat} {a b : List Char} (h : Edits n a b) :
    wordDistance a b ≤ n := by
  induction h with
  | none word => rw [wordDistance_self]
  | @more n a b c first rest ih =>
      have hfirst := first.wordDistance_le
      have htriangle := wordDistance_triangle a b c
      omega

theorem edits_wordDistance (a b : List Char) : Edits (wordDistance a b) a b := by
  induction a generalizing b with
  | nil =>
      rw [wordDistance_nil_left]
      induction b with
      | nil => exact .none []
      | cons d b ih => exact .more (.insert [] [] d) (ih.cons d)
  | cons c a ih =>
      induction b with
      | nil =>
          have hrest := ih []
          rw [wordDistance_nil_right] at hrest ⊢
          exact .more (.delete [] a c) hrest
      | cons d b ihb =>
          rcases wordDistance_cases c d a b with h | h | h
          · rw [h]
            split
            · rename_i heq
              rw [heq]
              exact (ih b).cons d
            · exact .more (.replace [] a c d) ((ih b).cons d)
          · rw [h]
            exact .more (.delete [] a c) (ih (d :: b))
          · rw [h]
            exact .more (.insert [] (c :: a) d) (ihb.cons d)

/-- The recursion gives the least number of edits. -/
theorem isLeast_wordDistance (a b : List Char) :
    IsLeast {n | Edits n a b} (wordDistance a b) :=
  ⟨edits_wordDistance a b, fun _ h => Edits.wordDistance_le h⟩

theorem wordDistance_eq_zero_iff {a b : List Char} : wordDistance a b = 0 ↔ a = b := by
  constructor
  · intro h
    have hedits := edits_wordDistance a b
    rw [h] at hedits
    exact hedits.eq_of_zero
  · rintro rfl
    exact wordDistance_self a

/-- Words are as far apart backwards. -/
theorem wordDistance_reverse (a b : List Char) :
    wordDistance a.reverse b.reverse = wordDistance a b := by
  apply Nat.le_antisymm
  · exact (edits_wordDistance a b).reverse.wordDistance_le
  · have hback := (edits_wordDistance a.reverse b.reverse).reverse
    rw [List.reverse_reverse, List.reverse_reverse] at hback
    exact hback.wordDistance_le

/-! ## The loop over two rows -/

/-- A loop over a word with the number of each character gives a result and keeps an invariant of
what was read, if each round does. -/
theorem foldlM_zipIdx {σ : Type} (round : σ → Char × Nat → Option σ)
    (invariant : List Char → σ → Prop) {word : List Char}
    (hround : ∀ before c after state, before ++ c :: after = word → invariant before state →
      ∃ next, round state (c, before.length) = some next ∧ invariant (before ++ [c]) next)
    {state : σ} (hstate : invariant [] state) :
    ∃ last, word.zipIdx.foldlM round state = some last ∧ invariant word last := by
  have hloop : ∀ (rest before : List Char) (state : σ), before ++ rest = word →
      invariant before state → ∃ last,
        (rest.zipIdx before.length).foldlM round state = some last ∧ invariant word last := by
    intro rest
    induction rest with
    | nil =>
        intro before state hword hbefore
        rw [List.append_nil] at hword
        exact ⟨state, rfl, hword ▸ hbefore⟩
    | cons c rest ih =>
        intro before state hword hbefore
        obtain ⟨next, hnext, hafter⟩ := hround before c rest state hword hbefore
        obtain ⟨last, hlast, hend⟩ := ih (before ++ [c]) next (by simpa using hword) hafter
        refine ⟨last, ?_, hend⟩
        rw [List.zipIdx_cons, List.foldlM_cons, hnext]
        simpa using hlast
  exact hloop word [] state rfl hstate

/-- The first columns of a row for a word hold the distances from what was read to the beginnings of
the word. What was read stands backwards, its last character first. -/
structure Holds (row : Array Nat) (read word : List Char) (columns : Nat) : Prop where
  size : row.size = word.length + 1
  cell : ∀ column < columns, row[column]? = some (wordDistance read (word.take column).reverse)

namespace Rows

/-- Writing the next cell of a row that holds some. -/
theorem exists_write {rows : Rows} {read word : List Char} {column cell : Nat}
    (h : Holds rows.current read word column) (hcolumn : column ≤ word.length)
    (hcell : cell = wordDistance read (word.take column).reverse) :
    ∃ next, rows.write? column cell = some next ∧ next.finished = rows.finished ∧
      Holds next.current read word (column + 1) := by
  have hrange : column < rows.current.size := by
    rw [h.size]
    omega
  refine ⟨_, dif_pos hrange, rfl, ?_, fun other hother => ?_⟩
  · rw [Array.size_set, h.size]
  · rw [Array.getElem?_set]
    split
    · rename_i heq
      rw [hcell, heq]
    · exact h.cell other (by omega)

/-- Filling one cell: its three neighbours are in range and hold what the recursion compares. -/
theorem exists_fill {rows : Rows} {read before after : List Char} {c d : Char}
    (hfinished : Holds rows.finished read (before ++ d :: after)
      ((before ++ d :: after).length + 1))
    (hcurrent : Holds rows.current (c :: read) (before ++ d :: after) (before.length + 1)) :
    ∃ next, rows.fill? c d before.length = some next ∧ next.finished = rows.finished ∧
      Holds next.current (c :: read) (before ++ d :: after) (before.length + 2) := by
  have hlength : before.length < (before ++ d :: after).length := by simp
  have hdiagonal := hfinished.cell before.length (by omega)
  have habove := hfinished.cell (before.length + 1) (by omega)
  have hleft := hcurrent.cell before.length (by omega)
  have htake : (before ++ d :: after).take before.length = before := by simp
  have htake_next : ((before ++ d :: after).take (before.length + 1)).reverse =
      d :: before.reverse := by simp [List.take_length_add_append]
  rw [htake] at hdiagonal hleft
  rw [htake_next] at habove
  obtain ⟨next, hwrite, hsame, hholds⟩ := exists_write hcurrent (by omega)
    ((wordDistance_cons_cons c d read before.reverse).symm.trans (by rw [htake_next]))
  refine ⟨next, ?_, hsame, hholds⟩
  rw [fill?, hdiagonal, habove, hleft]
  exact hwrite

/-- Between two rounds: one row is finished, and there is room for another. -/
structure Ready (rows : Rows) (read word : List Char) : Prop where
  finished : Holds rows.finished read word (word.length + 1)
  room : rows.current.size = word.length + 1

theorem start_ready (word : List Char) : (start word).Ready [] word where
  finished :=
    { size := by simp [start]
      cell := by
        intro column hcolumn
        have hle : column ≤ word.length := by omega
        simp [start, hcolumn, hle] }
  room := by simp [start]

/-- One round: the row for one more character is filled in range, and takes the place of the one
before. -/
theorem Ready.exists_next {rows : Rows} {read word : List Char} (h : rows.Ready read word)
    (c : Char) :
    ∃ next, rows.next? word c read.length = some next ∧ next.Ready (c :: read) word := by
  have hempty : Holds rows.current (c :: read) word 0 := ⟨h.room, fun _ hcolumn => by omega⟩
  obtain ⟨begun, hbegun, hfinished, hfirst⟩ := exists_write hempty (Nat.zero_le _)
    (show read.length + 1 = _ by simp)
  let filling (before : List Char) (rows : Rows) : Prop :=
    Holds rows.finished read word (word.length + 1) ∧
      Holds rows.current (c :: read) word (before.length + 1)
  have hstart : filling [] begun := ⟨hfinished ▸ h.finished, hfirst⟩
  have hround : ∀ before d after rows, before ++ d :: after = word → filling before rows →
      ∃ next, Rows.fill? c rows d before.length = some next ∧ filling (before ++ [d]) next := by
    rintro before d after rows rfl ⟨hdone, hpart⟩
    obtain ⟨next, hnext, hsame, hholds⟩ := exists_fill hdone hpart
    refine ⟨next, hnext, hsame ▸ hdone, ?_⟩
    simpa using hholds
  obtain ⟨filled, hfilled, hdone, hrow⟩ :=
    foldlM_zipIdx (fun rows cell => rows.fill? c cell.1 cell.2) filling hround hstart
  refine ⟨{ finished := filled.current, current := filled.finished }, ?_, hrow, hdone.size⟩
  rw [next?, hbegun]
  simp only [Option.bind_eq_bind, Option.bind_some, hfilled]
  rfl

end Rows

/-- The loop gives the distance of the recursion: every index it uses is in range. -/
theorem editDistance?_eq (a b : String) :
    editDistance? a b = some (wordDistance a.toList b.toList) := by
  have hround : ∀ before c after rows, before ++ c :: after = a.toList →
      Rows.Ready rows before.reverse b.toList → ∃ next,
        rows.next? b.toList c before.length = some next ∧
          next.Ready (before ++ [c]).reverse b.toList := by
    intro before c after rows _ hready
    simpa using hready.exists_next c
  obtain ⟨rows, hrows, hready⟩ := foldlM_zipIdx
    (fun rows line => Rows.next? b.toList rows line.1 line.2)
    (fun before rows => rows.Ready before.reverse b.toList) hround (Rows.start_ready b.toList)
  have hlast := hready.finished.cell b.toList.length (Nat.lt_succ_self _)
  rw [List.take_length, wordDistance_reverse] at hlast
  simp only [editDistance?, hrows, Option.bind_eq_bind, Option.bind_some]
  exact hlast

theorem editDistance_eq (a b : String) :
    editDistance a b = wordDistance a.toList b.toList := by
  rw [editDistance, editDistance?_eq, Option.getD_some]

/-- The loop over two rows, for any two words: it comes to an end without an index out of range, its
result is that of the recursion, and this is the least number of edits that turn the first word into
the second. So it is zero just for equal words, the same both ways, and never longer than a detour
over a third word. -/
theorem editDistance_exact (a b : String) :
    editDistance? a b = some (wordDistance a.toList b.toList) ∧
      editDistance? a b = some (editDistance a b) ∧
      IsLeast {n | Edits n a.toList b.toList} (editDistance a b) ∧
      (editDistance a b = 0 ↔ a = b) ∧
      editDistance a b = editDistance b a ∧
      ∀ c, editDistance a c ≤ editDistance a b + editDistance b c := by
  simp only [editDistance_eq]
  refine ⟨editDistance?_eq a b, editDistance?_eq a b, isLeast_wordDistance _ _, ?_,
    wordDistance_comm _ _, fun c => wordDistance_triangle _ _ _⟩
  rw [wordDistance_eq_zero_iff, String.toList_inj]

end QueryAudit.Suggestion
