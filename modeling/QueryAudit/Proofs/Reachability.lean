import Mathlib.Data.List.Dedup
import Mathlib.Data.List.Perm.Subperm
import Mathlib.Logic.Relation
import QueryAudit.Document

/-!
# The closure under spreads is reachability

`Document.reachable` opens selection sets from a list of waiting ones and marks the names that it
has seen. Every fragment found is reached by a chain of spreads. For the converse, a found fragment
is opened sometime, since each round takes one waiting set off and every set put on is that of a
name seen for the first time; so there are rounds enough, and in the end nothing is waiting. The
bound on the rounds is never felt: `Closes` is the search without it.
-/

namespace QueryAudit.Document

/-- A chain of spreads leads from a selection set to a fragment, each spread to the first fragment
of its name. -/
inductive Reaches (document : Document) : SelectionSet → Fragment → Prop
  | spread {selections : SelectionSet} {spread : Spread} {fragment : Fragment}
      (hspread : spread ∈ SelectionSet.spreads selections)
      (hfragment : document.fragment? spread.name = some fragment) :
      Reaches document selections fragment
  | through {selections : SelectionSet} {spread : Spread} {between fragment : Fragment}
      (hspread : spread ∈ SelectionSet.spreads selections)
      (hbetween : document.fragment? spread.name = some between)
      (hreaches : Reaches document between.selections fragment) :
      Reaches document selections fragment

theorem name_of_fragment? {document : Document} {name : Name} {fragment : Fragment}
    (h : document.fragment? name = some fragment) : fragment.name = name := by
  have hfound := List.find?_some h
  simpa using hfound

/-! ## One round -/

theorem discover_cons_seen {document : Document} {seen : List Name} {spread : Spread}
    (h : spread.name ∈ seen) (rest : List Spread) :
    document.discover seen (spread :: rest) = document.discover seen rest := by
  rw [discover, if_pos h]

theorem discover_cons_new {document : Document} {seen : List Name} {spread : Spread}
    (h : spread.name ∉ seen) (rest : List Spread) :
    document.discover seen (spread :: rest) =
      ((document.discover (spread.name :: seen) rest).1,
        (document.fragment? spread.name).toList ++
          (document.discover (spread.name :: seen) rest).2) := by
  rw [discover, if_neg h]
  cases document.fragment? spread.name <;> rfl

theorem mem_discover_seen (document : Document) (seen : List Name) (spreads : List Spread)
    (name : Name) :
    name ∈ (document.discover seen spreads).1 ↔ name ∈ seen ∨ name ∈ spreads.map Spread.name := by
  induction spreads generalizing seen with
  | nil => simp [discover]
  | cons spread rest ih =>
      by_cases hseen : spread.name ∈ seen
      · rw [discover_cons_seen hseen, ih]
        grind
      · rw [discover_cons_new hseen, ih]
        grind

theorem mem_discover_found (document : Document) (seen : List Name) (spreads : List Spread)
    (fragment : Fragment) :
    fragment ∈ (document.discover seen spreads).2 ↔
      ∃ spread ∈ spreads, spread.name ∉ seen ∧ document.fragment? spread.name = some fragment := by
  induction spreads generalizing seen with
  | nil => simp [discover]
  | cons spread rest ih =>
      by_cases hseen : spread.name ∈ seen
      · rw [discover_cons_seen hseen, ih]
        grind
      · rw [discover_cons_new hseen, List.mem_append, ih, Option.mem_toList]
        grind

theorem nodup_discover (document : Document) (seen : List Name) (spreads : List Spread) :
    ((document.discover seen spreads).2.map Fragment.name).Nodup := by
  induction spreads generalizing seen with
  | nil => simp [discover]
  | cons spread rest ih =>
      by_cases hseen : spread.name ∈ seen
      · rw [discover_cons_seen hseen]
        exact ih seen
      · rw [discover_cons_new hseen, List.map_append, List.nodup_append]
        refine ⟨by cases document.fragment? spread.name <;> simp, ih _, ?_⟩
        -- a later fragment has a name that was not seen when this spread had been
        intro first hfirst later hlater heq
        obtain ⟨one, hone, rfl⟩ := List.mem_map.mp hfirst
        obtain ⟨other, hother, rfl⟩ := List.mem_map.mp hlater
        obtain ⟨next, -, hnew, hnext⟩ := (mem_discover_found _ _ _ _).mp hother
        rw [Option.mem_toList] at hone
        rw [name_of_fragment? hone, name_of_fragment? hnext] at heq
        exact hnew (heq ▸ List.mem_cons_self)

/-! ## Rounds -/

theorem Reaches.of_found {document : Document} {set : SelectionSet} {seen : List Name}
    {found fragment : Fragment}
    (hfound : found ∈ (document.discover seen (SelectionSet.spreads set)).2)
    (hreaches : document.Reaches found.selections fragment) : document.Reaches set fragment := by
  obtain ⟨spread, hspread, -, hdefined⟩ := (mem_discover_found _ _ _ _).mp hfound
  exact .through hspread hdefined hreaches

/-- What is found is reached from a set that was waiting. -/
theorem reaches_of_mem_reach {document : Document} {rounds : Nat} {waiting : List SelectionSet}
    {seen : List Name} {fragment : Fragment}
    (h : fragment ∈ document.reach rounds waiting seen) :
    ∃ set ∈ waiting, document.Reaches set fragment := by
  induction rounds generalizing waiting seen with
  | zero => cases h
  | succ rounds ih =>
      cases waiting with
      | nil => cases h
      | cons set others =>
          rcases List.mem_append.mp h with hfound | hlater
          · obtain ⟨spread, hspread, -, hdefined⟩ := (mem_discover_found _ _ _ _).mp hfound
            exact ⟨set, List.mem_cons_self, .spread hspread hdefined⟩
          · obtain ⟨next, hnext, hreaches⟩ := ih hlater
            rcases List.mem_append.mp hnext with hnext | hnext
            · obtain ⟨found, hfound, rfl⟩ := List.mem_map.mp (List.mem_reverse.mp hnext)
              exact ⟨set, List.mem_cons_self, .of_found hfound hreaches⟩
            · exact ⟨next, List.mem_cons_of_mem _ hnext, hreaches⟩

/-- No name is found twice, and none that was seen before. -/
theorem nodup_reach (document : Document) (rounds : Nat) (waiting : List SelectionSet)
    (seen : List Name) :
    ((document.reach rounds waiting seen).map Fragment.name).Nodup ∧
      ∀ fragment ∈ document.reach rounds waiting seen, fragment.name ∉ seen := by
  induction rounds generalizing waiting seen with
  | zero => simp [reach]
  | succ rounds ih =>
      cases waiting with
      | nil => simp [reach]
      | cons set others =>
          obtain ⟨hnodup, hnew⟩ := ih
            (((document.discover seen (SelectionSet.spreads set)).2.map
              Fragment.selections).reverse ++ others)
            (document.discover seen (SelectionSet.spreads set)).1
          have hseen := document.mem_discover_seen seen (SelectionSet.spreads set)
          have hfound : ∀ fragment ∈ (document.discover seen (SelectionSet.spreads set)).2,
              fragment.name ∉ seen ∧
                fragment.name ∈ (document.discover seen (SelectionSet.spreads set)).1 := by
            intro fragment hmem
            obtain ⟨spread, hspread, hunseen, hdefined⟩ := (mem_discover_found _ _ _ _).mp hmem
            rw [name_of_fragment? hdefined, hseen]
            exact ⟨hunseen, .inr (List.mem_map_of_mem hspread)⟩
          simp only [reach, List.map_append, List.nodup_append]
          refine ⟨⟨document.nodup_discover _ _, hnodup, ?_⟩, ?_⟩
          · intro first hfirst later hlater heq
            obtain ⟨one, hone, rfl⟩ := List.mem_map.mp hfirst
            obtain ⟨other, hother, rfl⟩ := List.mem_map.mp hlater
            exact hnew other hother (heq ▸ (hfound one hone).2)
          · intro fragment hmem
            rcases List.mem_append.mp hmem with hmem | hmem
            · exact (hfound fragment hmem).1
            · exact fun hold => hnew fragment hmem ((hseen _).mpr (.inl hold))

/-! ## Rounds enough -/

def unseen (document : Document) (seen : List Name) : Nat :=
  ((document.fragments.map Fragment.name).dedup.filter (· ∉ seen)).length

/-- Every fragment that a round finds is one less to be seen. -/
theorem unseen_discover (document : Document) (seen : List Name) (spreads : List Spread) :
    document.unseen (document.discover seen spreads).1 +
      (document.discover seen spreads).2.length ≤ document.unseen seen := by
  have hseen := document.mem_discover_seen seen spreads
  have hfound := document.mem_discover_found seen spreads
  have hnodup : ((document.discover seen spreads).2.map Fragment.name ++
      (document.fragments.map Fragment.name).dedup.filter
        (· ∉ (document.discover seen spreads).1)).Nodup := by
    rw [List.nodup_append]
    refine ⟨document.nodup_discover _ _, (List.nodup_dedup _).filter _, ?_⟩
    intro first hfirst later hlater heq
    obtain ⟨one, hone, rfl⟩ := List.mem_map.mp hfirst
    obtain ⟨spread, hspread, -, hdefined⟩ := (hfound one).mp hone
    have hunseen : later ∉ (document.discover seen spreads).1 := by
      simpa using (List.mem_filter.mp hlater).2
    rw [← heq, name_of_fragment? hdefined, hseen] at hunseen
    exact hunseen (.inr (List.mem_map_of_mem hspread))
  have hsubset : (document.discover seen spreads).2.map Fragment.name ++
      (document.fragments.map Fragment.name).dedup.filter
        (· ∉ (document.discover seen spreads).1) ⊆
      (document.fragments.map Fragment.name).dedup.filter (· ∉ seen) := by
    intro name hname
    rw [List.mem_filter, List.mem_dedup, decide_eq_true_iff]
    rcases List.mem_append.mp hname with hname | hname
    · obtain ⟨one, hone, rfl⟩ := List.mem_map.mp hname
      obtain ⟨spread, -, hunseen, hdefined⟩ := (hfound one).mp hone
      refine ⟨List.mem_map_of_mem (List.mem_of_find?_eq_some hdefined), ?_⟩
      rwa [name_of_fragment? hdefined]
    · rw [List.mem_filter, List.mem_dedup, decide_eq_true_iff, hseen] at hname
      exact ⟨hname.1, fun hold => hname.2 (.inl hold)⟩
  have hlength := (hnodup.subperm hsubset).length_le
  rw [List.length_append, List.length_map] at hlength
  unfold unseen
  omega

theorem unseen_nil_le (document : Document) : document.unseen [] ≤ document.fragments.length := by
  have hdedup := (List.dedup_sublist (document.fragments.map Fragment.name)).length_le
  have hall : document.unseen [] = (document.fragments.map Fragment.name).dedup.length := by
    simp [unseen]
  rwa [List.length_map, ← hall] at hdedup

/-- Sets are opened from the front of a list until none is waiting, however many rounds it takes:
these fragments are found. -/
inductive Closes (document : Document) : List SelectionSet → List Name → List Fragment → Prop
  | done {seen : List Name} : Closes document [] seen []
  | round {set : SelectionSet} {waiting : List SelectionSet} {seen : List Name}
      {later : List Fragment}
      (hlater : Closes document
        (((document.discover seen (SelectionSet.spreads set)).2.map Fragment.selections).reverse ++
          waiting)
        (document.discover seen (SelectionSet.spreads set)).1 later) :
      Closes document (set :: waiting) seen
        ((document.discover seen (SelectionSet.spreads set)).2 ++ later)

/-- With a round for each set that is waiting and each name that is not seen, the search ends by
itself. -/
theorem closes_reach {document : Document} {rounds : Nat} {waiting : List SelectionSet}
    {seen : List Name} (hrounds : waiting.length + document.unseen seen ≤ rounds) :
    document.Closes waiting seen (document.reach rounds waiting seen) := by
  induction rounds generalizing waiting seen with
  | zero =>
      have hnone : waiting = [] := List.length_eq_zero_iff.mp (by omega)
      rw [hnone]
      exact .done
  | succ rounds ih =>
      cases waiting with
      | nil => exact .done
      | cons set others =>
          have hunseen := document.unseen_discover seen (SelectionSet.spreads set)
          refine .round (ih ?_)
          simp only [List.length_append, List.length_reverse, List.length_map,
            List.length_cons] at hrounds ⊢
          omega

theorem Closes.unique {document : Document} {waiting : List SelectionSet} {seen : List Name}
    {first second : List Fragment} (hfirst : document.Closes waiting seen first)
    (hsecond : document.Closes waiting seen second) : first = second := by
  induction hfirst generalizing second with
  | done =>
      cases hsecond
      rfl
  | round _ ih =>
      cases hsecond with
      | round hlater => rw [ih hlater]

/-- Whatever a selection set spreads was seen or is among the fragments found. -/
def Covers (document : Document) (seen : List Name) (found : List Fragment)
    (set : SelectionSet) : Prop :=
  ∀ spread ∈ SelectionSet.spreads set, ∀ fragment,
    document.fragment? spread.name = some fragment → spread.name ∈ seen ∨ fragment ∈ found

theorem reach_covers {document : Document} {rounds : Nat} {waiting : List SelectionSet}
    {seen : List Name} (hrounds : waiting.length + document.unseen seen ≤ rounds) :
    ∀ set ∈ waiting ++ (document.reach rounds waiting seen).map Fragment.selections,
      document.Covers seen (document.reach rounds waiting seen) set := by
  induction rounds generalizing waiting seen with
  | zero =>
      have hnone : waiting = [] := List.length_eq_zero_iff.mp (by omega)
      simp [hnone, reach]
  | succ rounds ih =>
      cases waiting with
      | nil => simp [reach]
      | cons first others =>
          have hunseen := document.unseen_discover seen (SelectionSet.spreads first)
          have hseen := document.mem_discover_seen seen (SelectionSet.spreads first)
          have hfound := document.mem_discover_found seen (SelectionSet.spreads first)
          simp only [reach]
          generalize hround : document.discover seen (SelectionSet.spreads first) = round at *
          have hlater := @ih ((round.2.map Fragment.selections).reverse ++ others) round.1 (by
            simp only [List.length_append, List.length_reverse, List.length_map,
              List.length_cons] at hrounds ⊢
            omega)
          -- what the first set spreads is seen from now on, and found if it is new
          have hnew : ∀ spread ∈ SelectionSet.spreads first, ∀ fragment,
              document.fragment? spread.name = some fragment →
              spread.name ∈ seen ∨ fragment ∈ round.2 := by
            intro spread hspread fragment hdefined
            by_cases hold : spread.name ∈ seen
            · exact .inl hold
            · exact .inr ((hfound fragment).mpr ⟨spread, hspread, hold, hdefined⟩)
          have hall : ∀ set, document.Covers round.1
              (document.reach rounds ((round.2.map Fragment.selections).reverse ++ others)
                round.1) set →
              document.Covers seen (round.2 ++ document.reach rounds
                ((round.2.map Fragment.selections).reverse ++ others) round.1) set := by
            intro set hset spread hspread fragment hdefined
            rcases hset spread hspread fragment hdefined with hmarked | hmem
            · rcases (hseen spread.name).mp hmarked with hold | hname
              · exact .inl hold
              · obtain ⟨same, hsame, hname⟩ := List.mem_map.mp hname
                rw [← hname] at hdefined ⊢
                exact (hnew same hsame fragment hdefined).imp id (List.mem_append_left _)
            · exact .inr (List.mem_append_right _ hmem)
          intro set hset
          simp only [List.cons_append, List.mem_cons, List.map_append, List.mem_append] at hset
          rcases hset with rfl | hset | hset | hset
          · exact fun spread hspread fragment hdefined =>
              (hnew spread hspread fragment hdefined).imp id (List.mem_append_left _)
          · exact hall set (hlater set
              (List.mem_append_left _ (List.mem_append_right _ hset)))
          · exact hall set (hlater set
              (List.mem_append_left _ (List.mem_append_left _ (List.mem_reverse.mpr hset))))
          · exact hall set (hlater set (List.mem_append_right _ hset))

/-! ## The closure -/

theorem Reaches.mem_of_covers {document : Document} {found : List Fragment}
    (hfound : ∀ fragment ∈ found, document.Covers [] found fragment.selections)
    {set : SelectionSet} {fragment : Fragment} (h : document.Reaches set fragment)
    (hset : document.Covers [] found set) : fragment ∈ found := by
  induction h with
  | spread hspread hfragment => simpa using hset _ hspread _ hfragment
  | through hspread hbetween _ ih =>
      have hmem := hset _ hspread _ hbetween
      exact ih (hfound _ (by simpa using hmem))

theorem rounds_enough (document : Document) (selections : SelectionSet) :
    [selections].length + document.unseen [] ≤ document.fragments.length + 1 := by
  have hunseen := document.unseen_nil_le
  rw [List.length_singleton]
  omega

theorem closes_reachable (document : Document) (selections : SelectionSet) :
    document.Closes [selections] [] (document.reachable selections) :=
  closes_reach (document.rounds_enough selections)

theorem mem_reachable_iff (document : Document) (selections : SelectionSet)
    (fragment : Fragment) :
    fragment ∈ document.reachable selections ↔ document.Reaches selections fragment := by
  constructor
  · intro h
    obtain ⟨set, hset, hreaches⟩ := reaches_of_mem_reach h
    rwa [List.mem_singleton.mp hset] at hreaches
  · have hcovers := reach_covers (document.rounds_enough selections)
    intro h
    refine h.mem_of_covers (fun found hfound => ?_) ?_
    · exact hcovers _ (List.mem_append_right _ (List.mem_map_of_mem hfound))
    · exact hcovers _ (List.mem_append_left _ (List.mem_singleton_self _))

theorem nodup_reachable (document : Document) (selections : SelectionSet) :
    ((document.reachable selections).map Fragment.name).Nodup :=
  (document.nodup_reach _ _ _).1

/-! ## Names -/

/-- A name is spread in a selection set, at some depth of fields and inline fragments. -/
inductive SpreadIn (name : Name) : SelectionSet → Prop
  | here {selections : SelectionSet} {spread : Spread} (hspread : .spread spread ∈ selections)
      (hname : spread.name = name) : SpreadIn name selections
  | field {selections inner : SelectionSet} {field : Field}
      (hfield : .field field inner ∈ selections) (hinner : SpreadIn name inner) :
      SpreadIn name selections
  | inline {selections inner : SelectionSet} {fragment : InlineFragment}
      (hinline : .inline fragment inner ∈ selections) (hinner : SpreadIn name inner) :
      SpreadIn name selections

theorem SpreadIn.mono {name : Name} {selections larger : SelectionSet}
    (h : SpreadIn name selections) (hsubset : selections ⊆ larger) : SpreadIn name larger := by
  cases h with
  | here hspread hname => exact .here (hsubset hspread) hname
  | field hfield hinner => exact .field (hsubset hfield) hinner
  | inline hinline hinner => exact .inline (hsubset hinline) hinner

mutual

theorem spreadIn_singleton_of_mem {spread : Spread} {selection : Selection}
    (h : spread ∈ selection.spreads) : SpreadIn spread.name [selection] := by
  cases selection with
  | field field inner => exact .field List.mem_cons_self (spreadIn_of_mem h)
  | spread chosen =>
      rw [List.mem_singleton.mp h]
      exact .here List.mem_cons_self rfl
  | inline fragment inner => exact .inline List.mem_cons_self (spreadIn_of_mem h)

theorem spreadIn_of_mem {spread : Spread} {selections : SelectionSet}
    (h : spread ∈ SelectionSet.spreads selections) : SpreadIn spread.name selections := by
  cases selections with
  | nil => cases h
  | cons selection rest =>
      rcases List.mem_append.mp h with hfirst | hrest
      · exact (spreadIn_singleton_of_mem hfirst).mono (by simp)
      · exact (spreadIn_of_mem hrest).mono (List.subset_cons_self _ _)

end

theorem spreads_subset_of_mem {selections : SelectionSet} {selection : Selection}
    (h : selection ∈ selections) : selection.spreads ⊆ SelectionSet.spreads selections := by
  induction selections with
  | nil => cases h
  | cons first rest ih =>
      rcases List.mem_cons.mp h with rfl | hrest
      · exact List.subset_append_left _ _
      · exact List.Subset.trans (ih hrest) (List.subset_append_right _ _)

theorem spreadIn_iff {name : Name} {selections : SelectionSet} :
    SpreadIn name selections ↔ name ∈ (SelectionSet.spreads selections).map Spread.name := by
  constructor
  · intro h
    induction h with
    | here hspread hname =>
        rw [← hname]
        exact List.mem_map_of_mem (spreads_subset_of_mem hspread (List.mem_singleton_self _))
    | field hfield _ ih => exact List.map_subset _ (spreads_subset_of_mem hfield) ih
    | inline hinline _ ih => exact List.map_subset _ (spreads_subset_of_mem hinline) ih
  · intro h
    obtain ⟨spread, hspread, rfl⟩ := List.mem_map.mp h
    exact spreadIn_of_mem hspread

instance (name : Name) (selections : SelectionSet) : Decidable (SpreadIn name selections) :=
  decidable_of_iff _ spreadIn_iff.symm

/-- The first fragment of a name spreads another name, which may be undefined. -/
def SpreadsTo (document : Document) (source target : Name) : Prop :=
  ∃ fragment, document.fragment? source = some fragment ∧ SpreadIn target fragment.selections

/-- One spread or more lead from a selection set to a name. -/
def ReachesName (document : Document) (selections : SelectionSet) (name : Name) : Prop :=
  ∃ first, SpreadIn first selections ∧ Relation.ReflTransGen document.SpreadsTo first name

theorem Reaches.reachesName {document : Document} {selections : SelectionSet}
    {fragment : Fragment} (h : document.Reaches selections fragment) :
    document.fragment? fragment.name = some fragment ∧
      document.ReachesName selections fragment.name := by
  induction h with
  | spread hspread hfragment =>
      rw [name_of_fragment? hfragment]
      exact ⟨hfragment, _, spreadIn_of_mem hspread, .refl⟩
  | through hspread hbetween _ ih =>
      obtain ⟨hfragment, first, hfirst, hchain⟩ := ih
      exact ⟨hfragment, _, spreadIn_of_mem hspread, .head ⟨_, hbetween, hfirst⟩ hchain⟩

theorem ReachesName.reaches {document : Document} {selections : SelectionSet} {name : Name}
    {fragment : Fragment} (h : document.ReachesName selections name)
    (hfragment : document.fragment? name = some fragment) :
    document.Reaches selections fragment := by
  obtain ⟨first, hfirst, hchain⟩ := h
  induction hchain using Relation.ReflTransGen.head_induction_on generalizing selections with
  | refl =>
      obtain ⟨spread, hspread, rfl⟩ := List.mem_map.mp (spreadIn_iff.mp hfirst)
      exact .spread hspread hfragment
  | head hstep _ ih =>
      obtain ⟨spread, hspread, rfl⟩ := List.mem_map.mp (spreadIn_iff.mp hfirst)
      obtain ⟨between, hbetween, hnext⟩ := hstep
      exact .through hspread hbetween (ih hnext)

/-- The closure holds the first fragment of each name that is reached and defined. -/
theorem mem_reachable_iff_reachesName (document : Document) (selections : SelectionSet)
    (fragment : Fragment) :
    fragment ∈ document.reachable selections ↔
      document.fragment? fragment.name = some fragment ∧
        document.ReachesName selections fragment.name := by
  rw [mem_reachable_iff]
  exact ⟨Reaches.reachesName, fun h => h.2.reaches h.1⟩

/-- A name is reached if the set itself or a fragment of its closure spreads it. -/
theorem reachesName_iff (document : Document) (selections : SelectionSet) (name : Name) :
    document.ReachesName selections name ↔
      SpreadIn name selections ∨
        ∃ fragment ∈ document.reachable selections, SpreadIn name fragment.selections := by
  constructor
  · rintro ⟨first, hfirst, hchain⟩
    rcases hchain.cases_tail with rfl | ⟨source, hsource, fragment, hfragment, hname⟩
    · exact .inl hfirst
    · have hreaches : document.Reaches selections fragment :=
        ReachesName.reaches ⟨first, hfirst, hsource⟩ hfragment
      exact .inr ⟨fragment, (mem_reachable_iff ..).mpr hreaches, hname⟩
  · rintro (hname | ⟨fragment, hmem, hname⟩)
    · exact ⟨name, hname, .refl⟩
    · obtain ⟨hfragment, first, hfirst, hchain⟩ :=
        (mem_reachable_iff_reachesName ..).mp hmem
      exact ⟨first, hfirst, hchain.tail ⟨fragment, hfragment, hname⟩⟩

instance (document : Document) (selections : SelectionSet) (name : Name) :
    Decidable (document.ReachesName selections name) :=
  decidable_of_iff _ (document.reachesName_iff selections name).symm

end QueryAudit.Document
