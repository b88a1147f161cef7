import QueryAudit.Proofs.Tables
import QueryAudit.Rule.Fragments

/-!
# The search for cycles along trails

The search keeps its path and where fragments start on it in a state that it changes and restores.
Here it is read as a search along a trail: the fragments that it is inside of, each with the spread
taken in it. The path holds the spreads of the trail, and a fragment starts on the path where it
stands on the trail. So the part of the path that starts in the target of a spread is the closed
part of the trail, and the two searches clear and report the same (`searchFragment_eq`). The state
is left as it was, but for the fragments cleared.
-/

namespace QueryAudit.Cycle

/-! ## The search along a trail -/

/-- A fragment on the trail, by name, and the spread taken in it. -/
structure Leg where
  fragment : Name
  spread : Spread

/-- The fragments cleared so far, and what was reported. -/
structure Outcome where
  cleared : List Name
  reports : List Diagnostic

/-- The part of a trail that starts in the fragment that its last spread leads to, if that fragment
is on the trail. -/
def closedPart (trail : List Leg) (target : Name) : List Leg :=
  trail.dropWhile fun leg => leg.fragment ≠ target

/-- The report on the spreads of a cycle, the last of which leads to the given fragment. -/
def report (target : Name) (cycle : List Leg) : Diagnostic where
  problem := .fragmentCycle target (cycle.dropLast.map fun leg => leg.spread.name)
  positions := cycle.map fun leg => leg.spread.position

/-- Follow the spreads of a fragment in order. `visit` searches a fragment that is not on the
trail. -/
def follow (document : Document) (visit : List Leg → List Name → Fragment → Outcome)
    (trail : List Leg) (name : Name) : List Name → List Spread → Outcome
  | cleared, [] => ⟨cleared, []⟩
  | cleared, spread :: rest =>
      let longer := trail ++ [⟨name, spread⟩]
      let first : Outcome :=
        match closedPart longer spread.name with
        | [] =>
            match document.fragment? spread.name with
            | some fragment => visit longer cleared fragment
            | none => ⟨cleared, []⟩
        | cycle => ⟨cleared, [report spread.name cycle]⟩
      let others := follow document visit trail name first.cleared rest
      ⟨others.cleared, first.reports ++ others.reports⟩

/-- Search a fragment that is not on the trail, with trails longer by a number of legs at most. -/
def search (document : Document) : Nat → List Leg → List Name → Fragment → Outcome
  | 0, _, cleared, _ => ⟨cleared, []⟩
  | depth + 1, trail, cleared, fragment =>
      if fragment.name ∈ cleared then ⟨cleared, []⟩
      else
        let outcome := follow document (search document depth) trail fragment.name cleared
          (SelectionSet.spreads fragment.selections)
        { outcome with cleared := fragment.name :: outcome.cleared }

/-- Search from a fragment. The fragments on a trail have different names, so there are at most as
many as the document defines. -/
def searchFrom (document : Document) (cleared : List Name) (fragment : Fragment) : Outcome :=
  search document document.fragments.length [] cleared fragment

/-! ## Fragments on a trail -/

def trailNames (trail : List Leg) : List Name := trail.map Leg.fragment

@[simp] theorem trailNames_snoc (trail : List Leg) (name : Name) (spread : Spread) :
    trailNames (trail ++ [⟨name, spread⟩]) = trailNames trail ++ [name] := by
  simp [trailNames]

theorem closedPart_cons (leg : Leg) (rest : List Leg) (target : Name) :
    closedPart (leg :: rest) target =
      if leg.fragment = target then leg :: rest else closedPart rest target := by
  by_cases h : leg.fragment = target <;> simp [closedPart, h]

theorem closedPart_eq_nil_iff (trail : List Leg) (target : Name) :
    closedPart trail target = [] ↔ target ∉ trailNames trail := by
  induction trail with
  | nil => simp [closedPart, trailNames]
  | cons leg rest ih =>
      rw [closedPart_cons]
      by_cases h : leg.fragment = target
      · simp [h, trailNames]
      · simpa [h, Ne.symm h, trailNames] using ih

/-- The closed part of a trail starts where its target first stands on the trail. -/
theorem closedPart_eq_drop {trail : List Leg} {target : Name} {start : Nat}
    (h : (trailNames trail).findIdx? (· = target) = some start) :
    closedPart trail target = trail.drop start := by
  induction trail generalizing start with
  | nil => cases h
  | cons leg rest ih =>
      rw [closedPart_cons]
      by_cases hleg : leg.fragment = target
      · have hstart : start = 0 := by simpa [trailNames, List.findIdx?_cons, hleg] using h.symm
        rw [if_pos hleg, hstart, List.drop_zero]
      · simp only [trailNames, List.map_cons, List.findIdx?_cons, hleg, decide_false,
          Bool.false_eq_true, if_false, Option.map_eq_some_iff] at h
        obtain ⟨before, hbefore, rfl⟩ := h
        rw [if_neg hleg, List.drop_succ_cons]
        exact ih hbefore

theorem report_eq_diagnostic (target : Name) (cycle : List Leg) :
    report target cycle = diagnostic target (cycle.map Leg.spread) := by
  simp [report, diagnostic, ← List.map_dropLast]

/-! ## The state of the search -/

theorem findIdx?_eq_none {names : List Name} {name : Name} (h : name ∉ names) :
    names.findIdx? (· = name) = none := by
  rw [List.findIdx?_eq_none_iff]
  intro known hknown
  simp only [decide_eq_false_iff_not]
  exact fun heq => h (heq ▸ hknown)

/-- The state holds the spreads of a trail, and where the given fragments start on it. -/
structure Search.Holds (search : Search) (trail : List Leg) (names : List Name) : Prop where
  path : search.path = trail.map Leg.spread
  starts : ∀ name, search.starts.find? name = names.findIdx? (· = name)

def Search.past (search : Search) (outcome : Outcome) : Search × List Diagnostic :=
  ({ search with cleared := outcome.cleared }, outcome.reports)

theorem Search.Holds.take {search : Search} {trail : List Leg} {name : Name}
    (h : search.Holds trail (trailNames trail ++ [name])) (spread : Spread) :
    (search.take spread).Holds (trail ++ [⟨name, spread⟩])
      (trailNames (trail ++ [⟨name, spread⟩])) := by
  refine ⟨?_, ?_⟩
  · simp [Search.take, h.path]
  · rw [trailNames_snoc]
    exact h.starts

theorem Search.Holds.goInto {search : Search} {trail : List Leg}
    (h : search.Holds trail (trailNames trail)) {name : Name} (hnew : name ∉ trailNames trail) :
    (search.goInto name).Holds trail (trailNames trail ++ [name]) := by
  refine ⟨h.path, fun other => ?_⟩
  have hlength : search.path.length = (trailNames trail).length := by
    rw [h.path, trailNames, List.length_map, List.length_map]
  simp only [Search.goInto, NameTable.find?_insert, h.starts, List.findIdx?_append, hlength]
  by_cases hother : name = other
  · subst hother
    simp [findIdx?_eq_none hnew, List.findIdx?_cons]
  · simp [hother, List.findIdx?_cons]

theorem Search.Holds.starts_of_open {search : Search} {trail : List Leg} {name : Name}
    (h : search.Holds trail (trailNames trail ++ [name])) {spread : Spread}
    (hopen : closedPart (trail ++ [⟨name, spread⟩]) spread.name = []) :
    search.starts.find? spread.name = none := by
  rw [closedPart_eq_nil_iff, trailNames_snoc] at hopen
  rw [h.starts]
  exact findIdx?_eq_none hopen

/-- A fragment that the search is inside of starts on the path where it stands on the trail. -/
theorem Search.Holds.starts_of_closed {search : Search} {trail : List Leg} {name : Name}
    (h : search.Holds trail (trailNames trail ++ [name])) {spread : Spread}
    (hclosed : closedPart (trail ++ [⟨name, spread⟩]) spread.name ≠ []) :
    ∃ start, search.starts.find? spread.name = some start ∧
      (search.take spread).path.drop start =
        (closedPart (trail ++ [⟨name, spread⟩]) spread.name).map Leg.spread := by
  have htaken := h.take spread
  cases hfind : (trailNames (trail ++ [⟨name, spread⟩])).findIdx? (· = spread.name) with
  | none =>
      refine absurd ((closedPart_eq_nil_iff _ _).mpr fun hmem => ?_) hclosed
      have hnone := List.findIdx?_eq_none_iff.mp hfind spread.name hmem
      simp at hnone
  | some start =>
      refine ⟨start, (htaken.starts spread.name).trans hfind, ?_⟩
      rw [htaken.path, closedPart_eq_drop hfind, List.map_drop]

/-! ## The two searches agree -/

/-- What is asked of two searches of fragments, by state and along a trail. -/
def Agree (visit : Search → Fragment → Search × List Diagnostic)
    (along : List Leg → List Name → Fragment → Outcome) : Prop :=
  ∀ search trail fragment, search.Holds trail (trailNames trail) →
    fragment.name ∉ trailNames trail →
    visit search fragment = search.past (along trail search.cleared fragment)

theorem followSpreads_eq {document : Document}
    {visit : Search → Fragment → Search × List Diagnostic}
    {along : List Leg → List Name → Fragment → Outcome} (hvisit : Agree visit along)
    {trail : List Leg} {name : Name} {search : Search}
    (h : search.Holds trail (trailNames trail ++ [name])) (spreads : List Spread) :
    followSpreads document visit search spreads =
      search.past (follow document along trail name search.cleared spreads) := by
  induction spreads generalizing search with
  | nil => rfl
  | cons spread rest ih =>
      have hback : ∀ outcome : Outcome, ((search.take spread).past outcome).1.comeBack =
          (search.past outcome).1 := by
        intro outcome
        simp [Search.comeBack, Search.take, Search.past]
      have hrest : ∀ outcome : Outcome, followSpreads document visit (search.past outcome).1 rest =
          search.past (follow document along trail name outcome.cleared rest) :=
        fun outcome => ih ⟨h.path, h.starts⟩
      simp only [followSpreads, follow]
      cases hclosed : closedPart (trail ++ [⟨name, spread⟩]) spread.name with
      | nil =>
          have hstart := h.starts_of_open hclosed
          cases hfragment : document.fragment? spread.name with
          | none =>
              have hfirst : followSpread document visit search spread =
                  (search.take spread).past ⟨search.cleared, []⟩ := by
                simp only [followSpread, hstart, hfragment]
                rfl
              rw [hfirst, hback, hrest]
              rfl
          | some fragment =>
              have hname : fragment.name = spread.name := by
                have hfound := List.find?_some hfragment
                simpa using hfound
              have hnew : fragment.name ∉ trailNames (trail ++ [⟨name, spread⟩]) := by
                rwa [hname, ← closedPart_eq_nil_iff]
              have hfirst : followSpread document visit search spread =
                  (search.take spread).past
                    (along (trail ++ [⟨name, spread⟩]) search.cleared fragment) := by
                simp only [followSpread, hstart, hfragment]
                exact hvisit _ _ fragment (h.take spread) hnew
              rw [hfirst, hback, hrest]
              rfl
      | cons leg others =>
          obtain ⟨start, hstart, hpart⟩ := h.starts_of_closed (by rw [hclosed]; simp)
          have hfirst : followSpread document visit search spread =
              (search.take spread).past
                ⟨search.cleared, [report spread.name (leg :: others)]⟩ := by
            simp only [followSpread, hstart, hpart, hclosed, report_eq_diagnostic]
            rfl
          rw [hfirst, hback, hrest]
          rfl

/-- The search by state does what the search along the trail does, and leaves the path and the
starts as they were. -/
theorem searchFragment_eq (document : Document) (depth : Nat) :
    Agree (searchFragment document depth) (search document depth) := by
  induction depth with
  | zero => exact fun _ _ _ _ _ => rfl
  | succ depth ih =>
      intro state trail fragment h hnew
      unfold searchFragment search
      by_cases hcleared : fragment.name ∈ state.cleared
      · rw [if_pos hcleared, if_pos hcleared]
        rfl
      · rw [if_neg hcleared, if_neg hcleared]
        cases hspreads : SelectionSet.spreads fragment.selections with
        | nil => rfl
        | cons spread rest =>
            have hfollow : followSpreads document (searchFragment document depth)
                (state.goInto fragment.name) (spread :: rest) = _ :=
              followSpreads_eq ih (h.goInto hnew) (spread :: rest)
            have habsent : state.starts.find? fragment.name = none := by
              rw [h.starts]
              exact findIdx?_eq_none hnew
            have hstarts := NameTable.remove_insert habsent state.path.length
            simp only [hfollow]
            simp only [Search.past, Search.leave, Search.clear, Search.goInto, hstarts]

/-- The search of a fragment from outside of all fragments ends outside of all. -/
theorem searchFragment_outside (document : Document) (depth : Nat) (cleared : List Name)
    (fragment : Fragment) :
    searchFragment document depth ⟨cleared, [], []⟩ fragment =
      (⟨(search document depth [] cleared fragment).cleared, [], []⟩,
        (search document depth [] cleared fragment).reports) :=
  searchFragment_eq document depth _ [] fragment ⟨rfl, fun _ => rfl⟩ List.not_mem_nil

end QueryAudit.Cycle
