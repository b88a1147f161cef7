import QueryAudit.Proofs.Merge.Traces

/-!
# The search misses no clash

A search that finds nothing leaves a trace: the comparisons of fields that it opened, and its
ledger. What it skips is on the trace already, so in the end the trace is closed: where a
comparison is on it, so are those into which it breaks. From a closed trace every pair of fields
that a clash is about is found on it, by going along the fragments that lead to the two fields.
Where both ways come together in one fragment, the walk enters that fragment's own set.
-/

namespace QueryAudit.Merge

/-- Each of two fields has other arguments than the other. -/
def DifferBothWays (schema : Schema) (a b : Entry) : Prop :=
  ArgumentsDiffer schema a b ∧ ArgumentsDiffer schema b a

namespace Trace

variable {schema : Schema} {document : Document} {trace : Trace}

/-! ## Complete traces -/

theorem selections_ne_nil_of_selects {parent : Option TypeDefinition} {address : Address}
    {selections : SelectionSet} {entry : Entry}
    (h : Selects schema document parent address selections entry) : selections ≠ [] := by
  rintro rfl
  obtain ⟨path, hpath⟩ := h
  cases path with
  | nil => cases hpath
  | cons name path => cases hpath.1

/-- A trace is closed, and all comparisons for every set of the document are on it. -/
structure Complete (schema : Schema) (document : Document) (trace : Trace) : Prop where
  closed : trace.Closed (Sites.placed schema document) .empty
  visits : ∀ parent address selections, Place schema document parent address selections →
    trace.Visited (Sites.placed schema document) address

namespace Complete

variable (hschema : schema.FieldsOnComposites) (h : trace.Complete schema document)

include hschema h

/-- The fields of a set were compared with those to which a fragment leads, unless the way to them
comes back to the set. -/
theorem has_of_set {exclusive : Bool} {address target : Address} {name : Name}
    {fragment : Fragment} {path : List Name} {a b : Entry}
    (hmem : (address, name, exclusive) ∈ trace.ledger.setsWithFragments)
    (hlocate : locate? document name = some (target, fragment))
    (ha : ShownBy schema document [] address a) (hb : ShownBy schema document path target b)
    (hkey : a.key = b.key) :
    trace.Has exclusive a b ∨ (∃ number, address = [number]) ∧
      ∃ shorter : List Name, shorter.length ≤ path.length ∧
        ShownBy schema document shorter address b := by
  induction path generalizing name target fragment with
  | nil =>
      rcases (h.closed.sets _ hmem).resolve_left List.not_mem_nil target fragment hlocate with
        rfl | ⟨hbetween, -⟩
      · obtain ⟨number, hnumber, -⟩ := locate?_eq_some hlocate
        exact .inr ⟨⟨number, hnumber⟩, [], Nat.le_refl _, hb⟩
      · exact .inl (hbetween a b ha hb hkey)
  | cons next path ih =>
      rcases (h.closed.sets _ hmem).resolve_left List.not_mem_nil target fragment hlocate with
        rfl | ⟨-, hnext⟩
      · obtain ⟨number, hnumber, -⟩ := locate?_eq_some hlocate
        exact .inr ⟨⟨number, hnumber⟩, next :: path, Nat.le_refl _, hb⟩
      · obtain ⟨hspread, target', fragment', hlocate', hrest⟩ := (shownBy_cons hschema).mp hb
        rcases ih (hnext next hspread) hlocate' hrest with hhas | ⟨hnumber, shorter, hle, hshown⟩
        · exact .inl hhas
        · exact .inr ⟨hnumber, shorter, Nat.le_succ_of_le hle, hshown⟩

/-- The fields to which two fragments lead were compared, unless the ways to them come together. -/
theorem has_of_pair {exclusive : Bool} {f g : Name} {targetF targetG : Address}
    {fragmentF fragmentG : Fragment} {p q : List Name} {a b : Entry}
    (hcovers : trace.ledger.Covers exclusive f g)
    (hF : locate? document f = some (targetF, fragmentF))
    (hG : locate? document g = some (targetG, fragmentG))
    (ha : ShownBy schema document p targetF a) (hb : ShownBy schema document q targetG b)
    (hkey : a.key = b.key) :
    (∃ weaker, (weaker = true → exclusive = true) ∧ trace.Has weaker a b) ∨
      ∃ target, ∃ p' q' : List Name, p'.length + q'.length ≤ p.length + q.length ∧
        ShownBy schema document p' target a ∧ ShownBy schema document q' target b := by
  induction p generalizing exclusive f targetF fragmentF with
  | nil =>
      induction q generalizing exclusive g targetG fragmentG with
      | nil =>
          rcases h.closed.pairClosed_of_covers hcovers with rfl | ⟨weaker, hle, hclosed⟩
          · rw [hF] at hG
            cases hG
            exact .inr ⟨_, [], [], Nat.le_refl _, ha, hb⟩
          · exact .inl ⟨weaker, hle, (hclosed _ _ _ _ hF hG).1 a b ha hb hkey⟩
      | cons next q ih =>
          rcases h.closed.pairClosed_of_covers hcovers with rfl | ⟨weaker, hle, hclosed⟩
          · rw [hF] at hG
            cases hG
            exact .inr ⟨_, [], next :: q, Nat.le_refl _, ha, hb⟩
          · obtain ⟨hspread, target, fragment, hlocate, hrest⟩ := (shownBy_cons hschema).mp hb
            have hnext := (hclosed _ _ _ _ hF hG).2.1 next hspread
            rcases ih hlocate hrest hnext with ⟨least, hleast, hhas⟩ | ⟨target, p', q', hlength, hs⟩
            · exact .inl ⟨least, fun htrue => hle (hleast htrue), hhas⟩
            · exact .inr ⟨target, p', q', Nat.le_succ_of_le hlength, hs⟩
  | cons next p ih =>
      rcases h.closed.pairClosed_of_covers hcovers with rfl | ⟨weaker, hle, hclosed⟩
      · rw [hF] at hG
        cases hG
        exact .inr ⟨_, next :: p, q, Nat.le_refl _, ha, hb⟩
      · obtain ⟨hspread, target, fragment, hlocate, hrest⟩ := (shownBy_cons hschema).mp ha
        have hnext := (hclosed _ _ _ _ hF hG).2.2 next hspread
        rcases ih hnext hlocate hrest with ⟨least, hleast, hhas⟩ | ⟨target, p', q', hlength, hs⟩
        · exact .inl ⟨least, fun htrue => hle (hleast htrue), hhas⟩
        · refine .inr ⟨target, p', q', ?_, hs⟩
          rw [List.length_cons]
          omega

/-- Two fields of one key in one set were compared as fields that may be both present. -/
theorem has_of_shownBy {p q : List Name} {address : Address} {a b : Entry}
    (ha : ShownBy schema document p address a) (hb : ShownBy schema document q address b)
    (distinct : a.address ≠ b.address) (hkey : a.key = b.key) : trace.Has false a b := by
  -- By induction on the length of both ways: where one comes back to the set, or both come together
  -- in a fragment, what is left of them is shorter.
  induction hlength : p.length + q.length using Nat.strongRecOn generalizing p q address a b with
  | ind length ih =>
      have ⟨parent, selections, _, hplace, _⟩ := ha
      have hvisited := h.visits _ _ _ hplace
      have hone : ∀ {x y : Entry} {next : Name} {path : List Name},
          path.length + 1 = length → ShownBy schema document [] address x →
          ShownBy schema document (next :: path) address y → x.address ≠ y.address →
          x.key = y.key → trace.Has false x y := by
        intro x y next path hpath hx hy hxy hkeys
        obtain ⟨hspread, target, fragment, hlocate, hrest⟩ := (shownBy_cons hschema).mp hy
        rcases has_of_set hschema h (hvisited.sets next hspread) hlocate hx hrest hkeys with
          hhas | ⟨-, shorter, hle, hshown⟩
        · exact hhas
        · exact ih ([].length + shorter.length) (by simp; omega) hx hshown hxy hkeys rfl
      cases p with
      | nil =>
          cases q with
          | nil => exact hvisited.within a b ha hb distinct hkey
          | cons next q => exact hone (by simpa using hlength) ha hb distinct hkey
      | cons next p =>
          cases q with
          | nil => exact (hone (by simpa using hlength) hb ha distinct.symm hkey.symm).symm
          | cons other q =>
              obtain ⟨hspread, targetF, fragmentF, hF, hrest⟩ := (shownBy_cons hschema).mp ha
              obtain ⟨hspread', targetG, fragmentG, hG, hrest'⟩ := (shownBy_cons hschema).mp hb
              have hcovers := hvisited.pairs next other hspread hspread'
              rcases has_of_pair hschema h hcovers hF hG hrest hrest' hkey with
                ⟨weaker, hle, hhas⟩ | ⟨target, p', q', hshorter, ha', hb'⟩
              · cases weaker with
                | false => exact hhas
                | true => cases hle rfl
              · simp only [List.length_cons] at hlength
                exact ih (p'.length + q'.length) (by omega) ha' hb' distinct hkey rfl

/-- The fields in the sub-selections of two compared fields were compared. -/
theorem has_of_subfields {exclusive : Bool} {a b inA inB : Entry} {p q : List Name}
    (ha : Placed schema document a) (hb : Placed schema document b)
    (hclosed : trace.SubsetsClosed (Sites.placed schema document) exclusive a.address b.address)
    (hinA : ShownBy schema document p a.address inA)
    (hinB : ShownBy schema document q b.address inB) (distinct : inA.address ≠ inB.address)
    (hkey : inA.key = inB.key) :
    ∃ weaker, (weaker = true → exclusive = true) ∧ trace.Has weaker inA inB := by
  cases p with
  | nil =>
      cases q with
      | nil => exact ⟨exclusive, id, hclosed.between inA inB hinA hinB hkey⟩
      | cons next q =>
          obtain ⟨hspread, target, fragment, hlocate, hrest⟩ := (shownBy_cons hschema).mp hinB
          rcases has_of_set hschema h (hclosed.first next hspread) hlocate hinA hrest hkey with
            hhas | ⟨⟨number, hnumber⟩, -⟩
          · exact ⟨exclusive, id, hhas⟩
          · exact absurd hnumber (ha.address_ne number)
  | cons next p =>
      obtain ⟨hspread, target, fragment, hlocate, hrest⟩ := (shownBy_cons hschema).mp hinA
      cases q with
      | nil =>
          rcases has_of_set hschema h (hclosed.second next hspread) hlocate hinB hrest
            hkey.symm with hhas | ⟨⟨number, hnumber⟩, -⟩
          · exact ⟨exclusive, id, hhas.symm⟩
          · exact absurd hnumber (hb.address_ne number)
      | cons other q =>
          obtain ⟨hspread', target', fragment', hlocate', hrest'⟩ := (shownBy_cons hschema).mp hinB
          have hcovers := hclosed.pairs next other hspread hspread'
          rcases has_of_pair hschema h hcovers hlocate hlocate' hrest hrest' hkey with
            hhas | ⟨common, p', q', -, ha', hb'⟩
          · exact hhas
          · exact ⟨false, nofun, has_of_shownBy hschema h ha' hb' distinct hkey⟩

/-- Two fields that were compared do not clash, even if they are known never to be both present in
the comparison only where they are in the clash. -/
theorem not_clash {exclusive : Bool} {a b : Entry}
    (hclash : Clash schema document (DifferBothWays schema) exclusive a b)
    (ha : Placed schema document a) (hb : Placed schema document b) {weaker : Bool}
    (hle : weaker = true → exclusive = true) : ¬ trace.Has weaker a b := by
  induction hclash generalizing weaker with
  | names together names =>
      intro hhas
      obtain ⟨hdirect, -⟩ := h.closed.of_has hhas
      rw [or_eq_false_of_le hle together] at hdirect
      rcases hdirect with hdirect | hdirect
      · exact names ((directReason?_eq_none_iff.mp hdirect).1 rfl).1
      · exact names ((directReason?_eq_none_iff.mp hdirect).1 rfl).1.symm
  | arguments together arguments =>
      intro hhas
      obtain ⟨hdirect, -⟩ := h.closed.of_has hhas
      rw [or_eq_false_of_le hle together] at hdirect
      rcases hdirect with hdirect | hdirect
      · exact ((directReason?_eq_none_iff.mp hdirect).1 rfl).2 arguments.1
      · exact ((directReason?_eq_none_iff.mp hdirect).1 rfl).2 arguments.2
  | types hfirst hsecond types =>
      intro hhas
      obtain ⟨hdirect, -⟩ := h.closed.of_has hhas
      rcases hdirect with hdirect | hdirect
      · rw [(directReason?_eq_none_iff.mp hdirect).2 _ _ hfirst hsecond] at types
        cases types
      · rw [Schema.typesConflict_comm,
          (directReason?_eq_none_iff.mp hdirect).2 _ _ hsecond hfirst] at types
        cases types
  | subfields hfirst hsecond distinct key clash ih =>
      intro hhas
      obtain ⟨-, hsubsets⟩ := h.closed.of_has hhas
      have hclosed := hsubsets (selections_ne_nil_of_selects hfirst)
        (selections_ne_nil_of_selects hsecond)
      obtain ⟨p, hp⟩ := hfirst
      obtain ⟨q, hq⟩ := hsecond
      obtain ⟨least, hleast, hbelow⟩ := has_of_subfields hschema h ha hb hclosed
        (hp.shownBy ha.place) (hq.shownBy hb.place) distinct key
      exact ih (hp.placed hschema ha.place) (hq.placed hschema hb.place)
        (fun htrue => or_of_le hle (hleast htrue)) hbelow

/-- A document with a complete trace has no two fields that clash. -/
theorem not_hasClash : ¬ HasClash schema document (DifferBothWays schema) := by
  rintro ⟨parent, address, selections, a, b, henters, ⟨p, hp⟩, ⟨q, hq⟩, distinct, key, clash⟩
  have hplace := place_of_setAt? (Document.enters_iff.mp henters)
  have hhas := has_of_shownBy hschema h (hp.shownBy hplace) (hq.shownBy hplace) distinct key
  exact not_clash hschema h clash (hp.placed hschema hplace) (hq.placed hschema hplace) id hhas

end Complete

end Trace

end QueryAudit.Merge
