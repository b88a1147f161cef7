import Mathlib.Data.List.Perm.Subperm
import Mathlib.Logic.Relation
import QueryAudit.Proofs.Checkers
import QueryAudit.Proofs.CycleTrails

/-!
# The search for fragment cycles

Fragments and the spreads in them make a graph with several edges between two names. The search
follows every spread once, and the order in which fragments are cleared sorts the graph: a spread
that closes no cycle leads to a fragment cleared before its own. So without the closing spreads the
graph has no cycle, and a closing spread is the last one of a cycle along the trail.

`traceFragment` is the search with a record of the spreads it follows; `search_eq` shows that it is
the same search.
-/

namespace QueryAudit.Cycle

/-! ## The graph of fragments -/

/-- A spread in the first definition of a fragment, by the name of the fragment and the number of
the spread among those of the fragment. -/
structure Edge where
  fragment : Name
  number : Nat
deriving DecidableEq

def spreadsIn (document : Document) (name : Name) : List Spread :=
  match document.fragment? name with
  | some fragment => SelectionSet.spreads fragment.selections
  | none => []

/-- An edge is a spread of the named fragment, which is defined. -/
def Leads (document : Document) (edge : Edge) (target : Name) : Prop :=
  (∃ spread, (spreadsIn document edge.fragment)[edge.number]? = some spread ∧
    spread.name = target) ∧ (document.fragment? target).isSome

/-- An edge of a kind leads from one fragment to another. -/
def Linked (document : Document) (keep : Edge → Prop) (source target : Name) : Prop :=
  ∃ edge : Edge, edge.fragment = source ∧ keep edge ∧ Leads document edge target

/-- No way along edges of a kind leads back to where it starts. -/
def Acyclic (document : Document) (keep : Edge → Prop) : Prop :=
  ∀ name, ¬ Relation.TransGen (Linked document keep) name name

/-! ## The search with a record of what it follows -/

/-- A spread that the search followed, and the cycle that it closed; none if that is empty. -/
structure Followed where
  edge : Edge
  spread : Spread
  cycle : List Leg

/-- The fragments cleared so far, and the spreads followed. -/
structure Trace where
  cleared : List Name
  followed : List Followed

def Followed.closes (one : Followed) : Bool := !one.cycle.isEmpty

def Followed.report? (one : Followed) : Option Diagnostic :=
  if one.closes then some (report one.spread.name one.cycle) else none

def Trace.outcome (trace : Trace) : Outcome :=
  ⟨trace.cleared, trace.followed.filterMap Followed.report?⟩

/-- Where a spread leads the search: nowhere if it closes a cycle. -/
def traceTarget (document : Document) (visit : List Leg → List Name → Fragment → Trace)
    (longer : List Leg) (cleared : List Name) (spread : Spread) : Trace :=
  match closedPart longer spread.name, document.fragment? spread.name with
  | [], some fragment => visit longer cleared fragment
  | _, _ => ⟨cleared, []⟩

/-- Follow the spreads of a fragment in order, the first of which has the given number. -/
def traceSpreads (document : Document) (visit : List Leg → List Name → Fragment → Trace)
    (trail : List Leg) (name : Name) : Nat → List Name → List Spread → Trace
  | _, cleared, [] => ⟨cleared, []⟩
  | number, cleared, spread :: rest =>
      let longer := trail ++ [⟨name, spread⟩]
      let below := traceTarget document visit longer cleared spread
      let others := traceSpreads document visit trail name (number + 1) below.cleared rest
      ⟨others.cleared,
        ⟨⟨name, number⟩, spread, closedPart longer spread.name⟩ ::
          (below.followed ++ others.followed)⟩

def traceFragment (document : Document) : Nat → List Leg → List Name → Fragment → Trace
  | 0, _, cleared, _ => ⟨cleared, []⟩
  | depth + 1, trail, cleared, fragment =>
      if fragment.name ∈ cleared then ⟨cleared, []⟩
      else
        let trace := traceSpreads document (traceFragment document depth) trail fragment.name 0
          cleared (SelectionSet.spreads fragment.selections)
        { trace with cleared := fragment.name :: trace.cleared }

def traceAll (document : Document) : List Name → List Fragment → Trace
  | cleared, [] => ⟨cleared, []⟩
  | cleared, fragment :: rest =>
      let first := traceFragment document document.fragments.length [] cleared fragment
      let others := traceAll document first.cleared rest
      ⟨others.cleared, first.followed ++ others.followed⟩

def followedIn (document : Document) : List Followed :=
  (traceAll document [] document.fragments).followed

theorem traceSpreads_outcome (document : Document)
    {visit : List Leg → List Name → Fragment → Outcome}
    {traced : List Leg → List Name → Fragment → Trace}
    (hvisit : ∀ trail cleared fragment,
      (traced trail cleared fragment).outcome = visit trail cleared fragment)
    (trail : List Leg) (name : Name) (number : Nat) (cleared : List Name)
    (spreads : List Spread) :
    (traceSpreads document traced trail name number cleared spreads).outcome =
      follow document visit trail name cleared spreads := by
  induction spreads generalizing number cleared with
  | nil => rfl
  | cons spread rest ih =>
      simp only [traceSpreads, traceTarget, follow]
      cases hclosed : closedPart (trail ++ [⟨name, spread⟩]) spread.name with
      | nil =>
          cases hfragment : document.fragment? spread.name with
          | none =>
              have hothers := ih (number + 1) cleared
              simp [Trace.outcome, ← hothers, Followed.report?, Followed.closes]
          | some fragment =>
              have hbelow := hvisit (trail ++ [⟨name, spread⟩]) cleared fragment
              have hothers := ih (number + 1)
                (traced (trail ++ [⟨name, spread⟩]) cleared fragment).cleared
              simp [Trace.outcome, ← hothers, ← hbelow, Followed.report?, Followed.closes]
      | cons leg others =>
          have hothers := ih (number + 1) cleared
          simp [Trace.outcome, ← hothers, Followed.report?, Followed.closes]

/-- The search and the search with a record have the same outcome. -/
theorem search_eq (document : Document) (depth : Nat) (trail : List Leg) (cleared : List Name)
    (fragment : Fragment) :
    (traceFragment document depth trail cleared fragment).outcome =
      search document depth trail cleared fragment := by
  induction depth generalizing trail cleared fragment with
  | zero => rfl
  | succ depth ih =>
      unfold traceFragment search
      split
      · rfl
      · have hfollow := traceSpreads_outcome document ih trail fragment.name 0 cleared
          (SelectionSet.spreads fragment.selections)
        rw [← hfollow]
        rfl

/-! ## Trails -/

/-- Legs that lead from one fragment to another, each a spread of the fragment it starts in. -/
inductive Trail (document : Document) : List Leg → Name → Name → Prop
  | nil (name : Name) : Trail document [] name name
  | cons {leg : Leg} {rest : List Leg} {target : Name}
      (own : leg.spread ∈ spreadsIn document leg.fragment)
      (next : Trail document rest leg.spread.name target) :
      Trail document (leg :: rest) leg.fragment target

theorem Trail.snoc {document : Document} {trail : List Leg} {source name : Name}
    (h : Trail document trail source name) {spread : Spread}
    (hspread : spread ∈ spreadsIn document name) :
    Trail document (trail ++ [⟨name, spread⟩]) source spread.name := by
  induction h with
  | nil name => exact @Trail.cons document ⟨name, spread⟩ [] spread.name hspread (.nil _)
  | cons own _ ih => exact .cons own (ih hspread)

theorem Trail.cons_inv {document : Document} {leg : Leg} {rest : List Leg} {source target : Name}
    (h : Trail document (leg :: rest) source target) :
    source = leg.fragment ∧ leg.spread ∈ spreadsIn document leg.fragment ∧
      Trail document rest leg.spread.name target := by
  cases h with
  | cons own next => exact ⟨rfl, own, next⟩

/-- A trail over defined fragments is a way in the graph. -/
theorem Trail.transGen {document : Document} {leg : Leg} {rest : List Leg} {source target : Name}
    (h : Trail document (leg :: rest) source target)
    (hrest : ∀ other ∈ rest, (document.fragment? other.fragment).isSome)
    (htarget : (document.fragment? target).isSome) :
    Relation.TransGen (Linked document fun _ => True) source target := by
  induction rest generalizing leg source with
  | nil =>
      obtain ⟨rfl, hown, hnext⟩ := h.cons_inv
      obtain ⟨number, hnumber⟩ := List.getElem?_of_mem hown
      have hname : leg.spread.name = target := by
        cases hnext
        rfl
      exact .single ⟨⟨leg.fragment, number⟩, rfl, trivial, ⟨_, hnumber, hname⟩, htarget⟩
  | cons second rest ih =>
      obtain ⟨rfl, hown, hnext⟩ := h.cons_inv
      obtain ⟨number, hnumber⟩ := List.getElem?_of_mem hown
      have hname : leg.spread.name = second.fragment := hnext.cons_inv.1
      have hfirst : Linked document (fun _ => True) leg.fragment leg.spread.name :=
        ⟨⟨leg.fragment, number⟩, rfl, trivial, ⟨_, hnumber, rfl⟩,
          hname ▸ hrest second List.mem_cons_self⟩
      exact .head hfirst
        (ih hnext fun other hother => hrest other (List.mem_cons_of_mem _ hother))

/-- The closed part of a trail leads from its target back to it, and ends as the trail does. -/
theorem closedPart_spec {document : Document} {trail : List Leg} {source target : Name}
    (h : Trail document trail source target) (hne : closedPart trail target ≠ []) :
    Trail document (closedPart trail target) target target ∧
      (∀ leg ∈ closedPart trail target, leg ∈ trail) ∧
      (closedPart trail target).getLast? = trail.getLast? := by
  induction trail generalizing source with
  | nil => exact absurd rfl hne
  | cons leg rest ih =>
      obtain ⟨rfl, hown, hnext⟩ := h.cons_inv
      rw [closedPart_cons] at hne ⊢
      by_cases hleg : leg.fragment = target
      · rw [if_pos hleg]
        exact ⟨hleg ▸ h, fun _ hmem => hmem, rfl⟩
      · rw [if_neg hleg] at hne ⊢
        obtain ⟨htrail, hmem, hlast⟩ := ih hnext hne
        refine ⟨htrail, fun other hother => List.mem_cons_of_mem _ (hmem other hother), ?_⟩
        cases rest with
        | nil => exact absurd rfl hne
        | cons second others => rw [hlast, List.getLast?_cons_cons]

/-! ## What a search does -/

/-- In an order of names, a name stands in an end of it that does not hold another name. -/
def Behind (order : List Name) (source target : Name) : Prop :=
  ∃ before after, order = before ++ after ∧ target ∈ after ∧ source ∉ after

theorem Behind.prepend {order : List Name} {source target : Name} (h : Behind order source target)
    (more : List Name) : Behind (more ++ order) source target := by
  obtain ⟨before, after, rfl, htarget, hsource⟩ := h
  exact ⟨more ++ before, after, by simp, htarget, hsource⟩

/-- How often an edge is to be followed when some fragments are searched. -/
def due (document : Document) (names : List Name) (edge : Edge) : Nat :=
  if edge.fragment ∈ names ∧ edge.number < (spreadsIn document edge.fragment).length then 1 else 0

/-- How often an edge is to be followed when the spreads of a fragment from a number on are. -/
def dueFrom (name : Name) (number count : Nat) (edge : Edge) : Nat :=
  if edge.fragment = name ∧ number ≤ edge.number ∧ edge.number < number + count then 1 else 0

theorem due_append {document : Document} {first second : List Name}
    (h : ∀ name ∈ first, name ∉ second) (edge : Edge) :
    due document (first ++ second) edge = due document first edge + due document second edge := by
  by_cases hfirst : edge.fragment ∈ first
  · have hsecond := h _ hfirst
    simp [due, hfirst, hsecond]
  · simp [due, hfirst]

theorem due_cons {document : Document} {name : Name} {names : List Name} (h : name ∉ names)
    (edge : Edge) :
    due document (name :: names) edge =
      dueFrom name 0 (spreadsIn document name).length edge + due document names edge := by
  by_cases hname : edge.fragment = name
  · subst hname
    simp [due, dueFrom, h]
  · simp [due, dueFrom, hname]

theorem dueFrom_succ (name : Name) (number count : Nat) (edge : Edge) :
    dueFrom name number (count + 1) edge =
      (if (⟨name, number⟩ : Edge) = edge then 1 else 0) + dueFrom name (number + 1) count edge := by
  obtain ⟨fragment, index⟩ := edge
  by_cases hname : fragment = name
  · subst hname
    by_cases hindex : number = index
    · subst hindex
      have hhere : dueFrom fragment number (count + 1) ⟨fragment, number⟩ = 1 :=
        if_pos ⟨rfl, Nat.le_refl number, Nat.lt_add_of_pos_right (Nat.succ_pos count)⟩
      have hlater : dueFrom fragment (number + 1) count ⟨fragment, number⟩ = 0 :=
        if_neg fun h => Nat.not_succ_le_self number h.2.1
      rw [hhere, hlater, if_pos rfl]
    · have hiff : (number ≤ index ∧ index < number + (count + 1)) ↔
          (number + 1 ≤ index ∧ index < number + 1 + count) := by omega
      simp [dueFrom, hindex, hiff]
  · simp [dueFrom, hname, Ne.symm hname]

/-- What is recorded of a spread is right: the spread is the one of its number, a cycle that it
closes leads from its target back to it and ends with it, and if it closes none then its target,
if defined, is cleared before its own fragment. -/
structure Followed.Sound (document : Document) (order : List Name) (one : Followed) : Prop where
  spread : (spreadsIn document one.edge.fragment)[one.edge.number]? = some one.spread
  closing : one.cycle ≠ [] → (document.fragment? one.spread.name).isSome ∧
    Trail document one.cycle one.spread.name one.spread.name ∧
    (∀ leg ∈ one.cycle, (document.fragment? leg.fragment).isSome) ∧
    one.cycle.getLast? = some ⟨one.edge.fragment, one.spread⟩
  distinct : (trailNames one.cycle).Nodup
  behind : one.cycle = [] → (document.fragment? one.spread.name).isSome →
    Behind order one.edge.fragment one.spread.name

theorem Followed.Sound.prepend {document : Document} {order : List Name} {one : Followed}
    (h : one.Sound document order) (more : List Name) : one.Sound document (more ++ order) :=
  ⟨h.spread, h.closing, h.distinct, fun hcycle htarget => (h.behind hcycle htarget).prepend more⟩

/-- A search has cleared new fragments and followed each of their spreads once, besides `own` other
ones. It keeps off the fragments to avoid. -/
structure Swept (document : Document) (avoid before new : List Name) (own : Edge → Nat)
    (trace : Trace) : Prop where
  cleared : trace.cleared = new ++ before
  nodup : new.Nodup
  fresh : ∀ name ∈ new, name ∉ before ∧ name ∉ avoid
  defined : ∀ name ∈ new, (document.fragment? name).isSome
  once : ∀ edge, (trace.followed.map Followed.edge).count edge = own edge + due document new edge
  sound : ∀ one ∈ trace.followed, one.Sound document trace.cleared

theorem Swept.nothing (document : Document) (avoid before : List Name) :
    Swept document avoid before [] (fun _ => 0) ⟨before, []⟩ := by
  refine ⟨rfl, List.nodup_nil, ?_, ?_, ?_, ?_⟩
  · simp
  · simp
  · simp [due]
  · simp

/-- One search after another. -/
theorem Swept.append {document : Document} {avoid before newA newB : List Name}
    {ownA ownB : Edge → Nat} {a b : Trace} (ha : Swept document avoid before newA ownA a)
    (hb : Swept document avoid a.cleared newB ownB b) :
    Swept document avoid before (newB ++ newA) (fun edge => ownA edge + ownB edge)
      ⟨b.cleared, a.followed ++ b.followed⟩ := by
  have hdisjoint : ∀ name ∈ newB, name ∉ newA := by
    intro name hname hold
    have hcleared := (hb.fresh name hname).1
    rw [ha.cleared] at hcleared
    exact hcleared (List.mem_append_left _ hold)
  refine ⟨?_, ?_, ?_, ?_, ?_, ?_⟩
  · simp [hb.cleared, ha.cleared]
  · rw [List.nodup_append]
    refine ⟨hb.nodup, ha.nodup, ?_⟩
    rintro name hname _ hold rfl
    exact hdisjoint name hname hold
  · intro name hname
    rcases List.mem_append.mp hname with hname | hname
    · refine ⟨fun hbefore => ?_, (hb.fresh name hname).2⟩
      have hcleared := (hb.fresh name hname).1
      rw [ha.cleared] at hcleared
      exact hcleared (List.mem_append_right _ hbefore)
    · exact ha.fresh name hname
  · intro name hname
    rcases List.mem_append.mp hname with hname | hname
    · exact hb.defined name hname
    · exact ha.defined name hname
  · intro edge
    have hcountA := ha.once edge
    have hcountB := hb.once edge
    simp only [List.map_append, List.count_append, due_append hdisjoint]
    omega
  · intro one hone
    rcases List.mem_append.mp hone with hone | hone
    · have hsound := (ha.sound one hone).prepend newB
      rwa [← hb.cleared] at hsound
    · exact hb.sound one hone

/-- The fragments of a trail and the one at its end are defined and all different. -/
structure Distinct (document : Document) (trail : List Leg) (name : Name) : Prop where
  nodup : (trailNames trail ++ [name]).Nodup
  defined : ∀ other ∈ trailNames trail ++ [name], (document.fragment? other).isSome

/-- The search stands in a fragment at the end of a trail that leads there. -/
structure Standing (document : Document) (trail : List Leg) (name : Name) : Prop
    extends Distinct document trail name where
  path : ∃ source, Trail document trail source name

/-- A spread that closes no cycle makes the trail longer. -/
theorem Distinct.next {document : Document} {trail : List Leg} {name : Name}
    (h : Distinct document trail name) {spread : Spread}
    (hopen : closedPart (trail ++ [⟨name, spread⟩]) spread.name = [])
    (hdefined : (document.fragment? spread.name).isSome) :
    Distinct document (trail ++ [⟨name, spread⟩]) spread.name := by
  rw [closedPart_eq_nil_iff] at hopen
  refine ⟨?_, ?_⟩
  · rw [List.nodup_append]
    refine ⟨by simpa using h.nodup, by simp, ?_⟩
    intro other hother target htarget heq
    rw [List.mem_singleton] at htarget
    subst heq htarget
    exact hopen hother
  · intro other hother
    rcases List.mem_append.mp hother with hother | hother
    · exact h.defined other (by simpa using hother)
    · rw [List.mem_singleton] at hother
      subst hother
      exact hdefined

theorem Distinct.closedPart_nodup {document : Document} {trail : List Leg} {name : Name}
    (h : Distinct document trail name) (spread : Spread) :
    (trailNames (closedPart (trail ++ [⟨name, spread⟩]) spread.name)).Nodup := by
  have hnodup := h.nodup
  rw [← trailNames_snoc trail name spread] at hnodup
  exact hnodup.sublist ((List.dropWhile_sublist _).map _)

theorem Standing.next {document : Document} {trail : List Leg} {name : Name}
    (h : Standing document trail name) {spread : Spread}
    (hspread : spread ∈ spreadsIn document name)
    (hopen : closedPart (trail ++ [⟨name, spread⟩]) spread.name = [])
    (hdefined : (document.fragment? spread.name).isSome) :
    Standing document (trail ++ [⟨name, spread⟩]) spread.name := by
  obtain ⟨source, hpath⟩ := h.path
  exact ⟨h.toDistinct.next hopen hdefined, source, hpath.snoc hspread⟩

/-- A spread that closes a cycle is recorded with it. -/
theorem Standing.closing {document : Document} {trail : List Leg} {name : Name}
    (h : Standing document trail name) {spread : Spread}
    (hspread : spread ∈ spreadsIn document name)
    (hclosed : closedPart (trail ++ [⟨name, spread⟩]) spread.name ≠ []) :
    (document.fragment? spread.name).isSome ∧
      Trail document (closedPart (trail ++ [⟨name, spread⟩]) spread.name) spread.name
        spread.name ∧
      (∀ leg ∈ closedPart (trail ++ [⟨name, spread⟩]) spread.name,
        (document.fragment? leg.fragment).isSome) ∧
      (closedPart (trail ++ [⟨name, spread⟩]) spread.name).getLast? = some ⟨name, spread⟩ := by
  obtain ⟨source, hpath⟩ := h.path
  obtain ⟨htrail, hmem, hlast⟩ := closedPart_spec (hpath.snoc hspread) hclosed
  refine ⟨?_, htrail, ?_, ?_⟩
  · have htarget : spread.name ∈ trailNames (trail ++ [⟨name, spread⟩]) :=
      Decidable.byContradiction fun habsent =>
        hclosed ((closedPart_eq_nil_iff _ _).mpr habsent)
    rw [trailNames_snoc] at htarget
    exact h.defined _ htarget
  · intro leg hleg
    have hname : leg.fragment ∈ trailNames (trail ++ [⟨name, spread⟩]) :=
      List.mem_map_of_mem (hmem leg hleg)
    rw [trailNames_snoc] at hname
    exact h.defined _ hname
  · rw [hlast, List.getLast?_concat]

/-- What is asked of the search of a fragment at the end of a trail. -/
def Sweeps (document : Document) (visit : List Leg → List Name → Fragment → Trace)
    (trail : List Leg) : Prop :=
  ∀ cleared fragment, document.fragment? fragment.name = some fragment →
    Standing document trail fragment.name →
    ∃ new, Swept document (trailNames trail) cleared new (fun _ => 0)
        (visit trail cleared fragment) ∧
      fragment.name ∈ (visit trail cleared fragment).cleared

/-- Following one spread, given the search of fragments. -/
theorem traceTarget_swept {document : Document}
    {visit : List Leg → List Name → Fragment → Trace} {trail : List Leg} {name : Name}
    {spread : Spread} (hvisit : Sweeps document visit (trail ++ [⟨name, spread⟩]))
    (h : Standing document trail name) (hspread : spread ∈ spreadsIn document name)
    (cleared : List Name) :
    ∃ new, Swept document (trailNames trail ++ [name]) cleared new (fun _ => 0)
        (traceTarget document visit (trail ++ [⟨name, spread⟩]) cleared spread) ∧
      (closedPart (trail ++ [⟨name, spread⟩]) spread.name = [] →
        (document.fragment? spread.name).isSome → spread.name ∈
          (traceTarget document visit (trail ++ [⟨name, spread⟩]) cleared spread).cleared) := by
  unfold traceTarget
  cases hclosed : closedPart (trail ++ [⟨name, spread⟩]) spread.name with
  | nil =>
      cases hfragment : document.fragment? spread.name with
      | none => exact ⟨[], Swept.nothing _ _ _, by simp⟩
      | some fragment =>
          have hname : fragment.name = spread.name := by
            have hfound := List.find?_some hfragment
            simpa using hfound
          have hstanding := h.next hspread hclosed (by simp [hfragment])
          obtain ⟨new, hswept, hmem⟩ := hvisit cleared fragment (by rw [hname, hfragment])
            (by rwa [hname])
          rw [trailNames_snoc] at hswept
          exact ⟨new, hswept, fun _ _ => hname ▸ hmem⟩
  | cons leg rest => exact ⟨[], Swept.nothing _ _ _, by simp⟩

theorem traceSpreads_swept {document : Document}
    {visit : List Leg → List Name → Fragment → Trace} {trail : List Leg} {name : Name}
    (hvisit : ∀ spread, Sweeps document visit (trail ++ [⟨name, spread⟩]))
    (h : Standing document trail name) (number : Nat) (cleared : List Name)
    (hname : name ∉ cleared) (spreads : List Spread)
    (hspreads : (spreadsIn document name).drop number = spreads) :
    ∃ new, Swept document (trailNames trail ++ [name]) cleared new
      (dueFrom name number spreads.length)
      (traceSpreads document visit trail name number cleared spreads) := by
  induction spreads generalizing number cleared with
  | nil =>
      refine ⟨[], ?_⟩
      have hnone : dueFrom name number ([] : List Spread).length = fun _ => 0 := by
        funext edge
        simp [dueFrom]
      rw [hnone]
      exact Swept.nothing document _ cleared
  | cons spread rest ih =>
      have hget : (spreadsIn document name)[number]? = some spread := by
        rw [← List.head?_drop, hspreads]
        rfl
      have hspread : spread ∈ spreadsIn document name := List.mem_of_getElem? hget
      have hrest : (spreadsIn document name).drop (number + 1) = rest := by
        rw [← List.tail_drop, hspreads]
        rfl
      obtain ⟨newBelow, hbelow, htarget⟩ := traceTarget_swept (hvisit spread) h hspread cleared
      have huncleared : name ∉
          (traceTarget document visit (trail ++ [⟨name, spread⟩]) cleared spread).cleared := by
        rw [hbelow.cleared, List.mem_append, not_or]
        exact ⟨fun hnew => (hbelow.fresh name hnew).2 (by simp), hname⟩
      obtain ⟨newOthers, hothers⟩ := ih (number + 1) _ huncleared hrest
      have hboth := hbelow.append hothers
      refine ⟨newOthers ++ newBelow, hboth.cleared, hboth.nodup, hboth.fresh, hboth.defined,
        ?_, ?_⟩
      · intro edge
        have hcount := hboth.once edge
        have hdue := dueFrom_succ name number rest.length edge
        simp only [traceSpreads, List.map_cons, List.count_cons, List.length_cons, beq_iff_eq]
        simp only at hcount
        omega
      · intro one hone
        simp only [traceSpreads, List.mem_cons] at hone
        rcases hone with rfl | hone
        · refine ⟨hget, fun hclosed => h.closing hspread hclosed,
            h.toDistinct.closedPart_nodup spread, fun hopen hdefined => ?_⟩
          -- the fragment is still on the trail, so all that is cleared lies behind it
          exact ⟨newOthers, _, hothers.cleared, htarget hopen hdefined, huncleared⟩
        · exact hboth.sound one hone

/-! ## The depth of the search -/

/-- Different defined names are at most as many as the fragments of a document. -/
theorem length_le_of_defined {document : Document} {names : List Name} (hnodup : names.Nodup)
    (hdefined : ∀ name ∈ names, (document.fragment? name).isSome) :
    names.length ≤ document.fragments.length := by
  have hsubset : names ⊆ document.fragments.map Fragment.name := by
    intro name hname
    obtain ⟨fragment, hfragment⟩ := Option.isSome_iff_exists.mp (hdefined name hname)
    have hfound := List.find?_some hfragment
    have heq : fragment.name = name := by simpa using hfound
    rw [← heq]
    exact List.mem_map_of_mem (List.mem_of_find?_eq_some hfragment)
  have hlength := (hnodup.subperm hsubset).length_le
  rwa [List.length_map] at hlength

theorem Distinct.length_lt {document : Document} {trail : List Leg} {name : Name}
    (h : Distinct document trail name) : trail.length < document.fragments.length := by
  have hlength := length_le_of_defined h.nodup h.defined
  simp only [trailNames, List.length_append, List.length_map, List.length_singleton] at hlength
  exact hlength

/-- The search of a fragment clears it, whatever is on the trail, if it may go deep enough. -/
theorem traceFragment_sweeps (document : Document) (depth : Nat) (trail : List Leg)
    (hdepth : document.fragments.length ≤ depth + trail.length) :
    Sweeps document (traceFragment document depth) trail := by
  induction depth generalizing trail with
  | zero =>
      intro cleared fragment _ hstanding
      have hlength := hstanding.length_lt
      omega
  | succ depth ih =>
      intro cleared fragment hfragment hstanding
      unfold traceFragment
      by_cases hcleared : fragment.name ∈ cleared
      · rw [if_pos hcleared]
        exact ⟨[], Swept.nothing document _ cleared, hcleared⟩
      · rw [if_neg hcleared]
        have hvisit : ∀ spread, Sweeps document (traceFragment document depth)
            (trail ++ [⟨fragment.name, spread⟩]) := by
          intro spread
          apply ih
          rw [List.length_append, List.length_singleton]
          omega
        have hspreads : spreadsIn document fragment.name =
            SelectionSet.spreads fragment.selections := by
          simp [spreadsIn, hfragment]
        obtain ⟨new, hswept⟩ := traceSpreads_swept hvisit hstanding 0 cleared hcleared
          (SelectionSet.spreads fragment.selections) (by rw [hspreads, List.drop_zero])
        have hname : fragment.name ∉ new := fun hnew =>
          (hswept.fresh fragment.name hnew).2 (by simp)
        refine ⟨fragment.name :: new, ⟨?_, ?_, ?_, ?_, ?_, ?_⟩, List.mem_cons_self⟩
        · simp [hswept.cleared]
        · exact List.nodup_cons.mpr ⟨hname, hswept.nodup⟩
        · intro name hmem
          rcases List.mem_cons.mp hmem with rfl | hmem
          · refine ⟨hcleared, fun htrail => ?_⟩
            have hnodup := hstanding.nodup
            rw [List.nodup_append] at hnodup
            exact hnodup.2.2 _ htrail _ List.mem_cons_self rfl
          · obtain ⟨hbefore, havoid⟩ := hswept.fresh name hmem
            exact ⟨hbefore, fun htrail => havoid (List.mem_append_left _ htrail)⟩
        · intro name hmem
          rcases List.mem_cons.mp hmem with rfl | hmem
          · simp [hfragment]
          · exact hswept.defined name hmem
        · intro edge
          have hcount := hswept.once edge
          rw [due_cons hname, hspreads, Nat.zero_add]
          exact hcount
        · intro one hone
          exact (hswept.sound one hone).prepend [fragment.name]

theorem follow_congr {document : Document}
    {visit other : List Leg → List Name → Fragment → Outcome} {trail : List Leg} {name : Name}
    (h : ∀ spread fragment cleared, document.fragment? spread.name = some fragment →
      closedPart (trail ++ [⟨name, spread⟩]) spread.name = [] →
        visit (trail ++ [⟨name, spread⟩]) cleared fragment =
          other (trail ++ [⟨name, spread⟩]) cleared fragment)
    (cleared : List Name) (spreads : List Spread) :
    follow document visit trail name cleared spreads =
      follow document other trail name cleared spreads := by
  induction spreads generalizing cleared with
  | nil => rfl
  | cons spread rest ih =>
      simp only [follow]
      cases hclosed : closedPart (trail ++ [⟨name, spread⟩]) spread.name with
      | nil =>
          cases hfragment : document.fragment? spread.name with
          | none => simp [ih]
          | some fragment => simp [ih, h spread fragment cleared hfragment hclosed]
      | cons leg others => simp [ih]

/-- More depth than there are fragments changes nothing: the search never stops for want of it. -/
theorem search_add_depth (document : Document) (depth extra : Nat) (trail : List Leg)
    (cleared : List Name) (fragment : Fragment)
    (hdepth : document.fragments.length ≤ depth + trail.length)
    (h : Distinct document trail fragment.name) :
    search document (depth + extra) trail cleared fragment =
      search document depth trail cleared fragment := by
  induction depth generalizing trail cleared fragment with
  | zero =>
      have hlength := h.length_lt
      omega
  | succ depth ih =>
      have hsucc : depth + 1 + extra = depth + extra + 1 := by omega
      rw [hsucc]
      unfold search
      by_cases hcleared : fragment.name ∈ cleared
      · rw [if_pos hcleared, if_pos hcleared]
      · rw [if_neg hcleared, if_neg hcleared]
        have hvisit : ∀ spread target cleared, document.fragment? spread.name = some target →
            closedPart (trail ++ [⟨fragment.name, spread⟩]) spread.name = [] →
            search document (depth + extra) (trail ++ [⟨fragment.name, spread⟩]) cleared target =
              search document depth (trail ++ [⟨fragment.name, spread⟩]) cleared target := by
          intro spread target cleared htarget hopen
          have hfound := List.find?_some htarget
          have hname : target.name = spread.name := by simpa using hfound
          apply ih
          · rw [List.length_append, List.length_singleton]
            omega
          · rw [hname]
            exact h.next hopen (by simp [htarget])
        rw [follow_congr hvisit]

/-! ## The search of a whole document -/

/-- A fragment is the first of its name if none before it has the name. -/
theorem fragment?_of_first {document : Document} {before after : List Fragment}
    {fragment : Fragment} (hsplit : document.fragments = before ++ fragment :: after)
    (hfirst : fragment.name ∉ before.map Fragment.name) :
    document.fragment? fragment.name = some fragment := by
  have hnone : before.find? (fun other => other.name = fragment.name) = none := by
    rw [List.find?_eq_none]
    intro other hother heq
    exact hfirst (List.mem_map.mpr ⟨other, hother, by simpa using heq⟩)
  unfold Document.fragment?
  rw [hsplit, List.find?_append, hnone]
  simp

/-- Searching from fragments one after the other clears them all. -/
theorem traceAll_swept {document : Document} (before after : List Fragment) (cleared : List Name)
    (hsplit : document.fragments = before ++ after)
    (hbefore : ∀ fragment ∈ before, fragment.name ∈ cleared) :
    ∃ new, Swept document [] cleared new (fun _ => 0) (traceAll document cleared after) ∧
      ∀ fragment ∈ after, fragment.name ∈ (traceAll document cleared after).cleared := by
  induction after generalizing before cleared with
  | nil => exact ⟨[], Swept.nothing document [] cleared, by simp⟩
  | cons fragment rest ih =>
      have hfirst : ∃ new, Swept document [] cleared new (fun _ => 0)
            (traceFragment document document.fragments.length [] cleared fragment) ∧
          fragment.name ∈
            (traceFragment document document.fragments.length [] cleared fragment).cleared := by
        by_cases hcleared : fragment.name ∈ cleared
        · have hskip : traceFragment document document.fragments.length [] cleared fragment =
              ⟨cleared, []⟩ := by
            cases document.fragments.length <;> simp [traceFragment, hcleared]
          rw [hskip]
          exact ⟨[], Swept.nothing document [] cleared, hcleared⟩
        · -- a later fragment of a name finds it cleared, so this is the first one
          have hfragment : document.fragment? fragment.name = some fragment := by
            apply fragment?_of_first hsplit
            intro hmem
            obtain ⟨other, hother, heq⟩ := List.mem_map.mp hmem
            exact hcleared (heq ▸ hbefore other hother)
          have hstanding : Standing document [] fragment.name := by
            refine ⟨⟨by simp [trailNames], ?_⟩, fragment.name, .nil _⟩
            simp [trailNames, hfragment]
          exact traceFragment_sweeps document document.fragments.length [] (by simp) cleared
            fragment hfragment hstanding
      obtain ⟨newFirst, hswept, hmem⟩ := hfirst
      have hkept : ∀ name ∈ cleared, name ∈
          (traceFragment document document.fragments.length [] cleared fragment).cleared := by
        intro name hname
        rw [hswept.cleared]
        exact List.mem_append_right _ hname
      obtain ⟨newOthers, hothers, hall⟩ := ih (before ++ [fragment])
        (traceFragment document document.fragments.length [] cleared fragment).cleared
        (by simp [hsplit]) (by
          intro other hother
          rcases List.mem_append.mp hother with hother | hother
          · exact hkept _ (hbefore other hother)
          · rw [List.mem_singleton] at hother
            exact hother ▸ hmem)
      refine ⟨newOthers ++ newFirst, ?_, ?_⟩
      · simpa [traceAll] using hswept.append hothers
      · intro other hother
        rcases List.mem_cons.mp hother with rfl | hother
        · simp only [traceAll]
          rw [hothers.cleared]
          exact List.mem_append_right _ hmem
        · exact hall other hother

/-! ## The run of the rule -/

theorem reports_fragmentSteps (schema : Schema) (document : Document) (supplied : Variables)
    (cleared : List Name) (fragments : List Fragment) :
    Checker.noFragmentCycles.reports schema document supplied (⟨cleared, [], []⟩ : Search)
        (fragments.map (Fragment.enterStep schema)) =
      (traceAll document cleared fragments).followed.filterMap Followed.report? := by
  induction fragments generalizing cleared with
  | nil => rfl
  | cons fragment rest ih =>
      have hstep : Checker.noFragmentCycles.step
          ⟨schema, document, supplied, (Fragment.enterStep schema fragment).types⟩
          (⟨cleared, [], []⟩ : Search) (Fragment.enterStep schema fragment).event =
          ((⟨(traceFragment document document.fragments.length [] cleared fragment).cleared, [], []⟩
              : Search),
            (traceFragment document document.fragments.length [] cleared fragment).followed.filterMap
              Followed.report?) := by
        have hsearch := searchFragment_outside document document.fragments.length cleared fragment
        rw [← search_eq] at hsearch
        simp only [Checker.noFragmentCycles, Checker.step_ofStep, Fragment.enterStep, hsearch]
        rfl
      simp only [List.map_cons, Checker.reports, hstep, traceAll, List.filterMap_append]
      rw [← ih]

/-- The rule reports the cycles that the followed spreads close. -/
theorem diagnostics_noFragmentCycles (schema : Schema) (document : Document)
    (supplied : Variables) :
    document.diagnostics schema [.noFragmentCycles] supplied =
      (followedIn document).filterMap Followed.report? := by
  rw [Document.diagnostics_singleton]
  unfold Document.reportsOf
  have hignored : ∀ step, Step.entersFragment step = false →
      ∀ state : Checker.noFragmentCycles.State, Checker.noFragmentCycles.step
        ⟨schema, document, supplied, step.types⟩ state step.event = (state, []) := by
    intro step hstep state
    unfold Step.entersFragment at hstep
    split at hstep
    · cases hstep
    · rename_i hevent
      refine (Checker.step_ofStep _ _ _ _ _ _).trans ?_
      simp only
      rfl
  have hreports := Checker.reports_filter Checker.noFragmentCycles schema document supplied
    Step.entersFragment hignored Search.empty (document.tree.steps schema)
  rw [Document.filter_steps_entersFragment] at hreports
  exact hreports.trans (reports_fragmentSteps schema document supplied [] document.fragments)

/-! ## Every spread is followed, and the closing ones hold all cycles -/

theorem Behind.idxOf_lt {order : List Name} {source target : Name} (hnodup : order.Nodup)
    (hsource : source ∈ order) (h : Behind order source target) :
    order.idxOf source < order.idxOf target := by
  obtain ⟨before, after, rfl, htarget, habsent⟩ := h
  have hbefore : source ∈ before := (List.mem_append.mp hsource).resolve_right habsent
  have hlater : target ∉ before := by
    intro hmem
    rw [List.nodup_append] at hnodup
    exact hnodup.2.2 target hmem target htarget rfl
  rw [List.idxOf_append_of_mem hbefore, List.idxOf_append_of_notMem hlater]
  have hlt := List.idxOf_lt_length_of_mem hbefore
  omega

theorem acyclic_of_idxOf_lt {document : Document} {keep : Edge → Prop} {order : List Name}
    (h : ∀ source target, Linked document keep source target →
      order.idxOf source < order.idxOf target) : Acyclic document keep := by
  have hway : ∀ source target, Relation.TransGen (Linked document keep) source target →
      order.idxOf source < order.idxOf target := by
    intro source target hpath
    induction hpath with
    | single hlink => exact h _ _ hlink
    | tail _ hlink ih => exact Nat.lt_trans ih (h _ _ hlink)
  intro name hcycle
  exact Nat.lt_irrefl _ (hway name name hcycle)

def closingEdges (document : Document) : List Edge :=
  ((followedIn document).filter Followed.closes).map Followed.edge

/-- The search of a whole document clears the defined names. -/
theorem exists_swept_document (document : Document) :
    ∃ order, Swept document [] [] order (fun _ => 0) (traceAll document [] document.fragments) ∧
      ∀ name, name ∈ order ↔ (document.fragment? name).isSome := by
  obtain ⟨order, hswept, hall⟩ := traceAll_swept [] document.fragments [] rfl (by simp)
  refine ⟨order, hswept, fun name => ⟨hswept.defined name, fun hdefined => ?_⟩⟩
  obtain ⟨fragment, hfragment⟩ := Option.isSome_iff_exists.mp hdefined
  have hfound := List.find?_some hfragment
  have hname : fragment.name = name := by simpa using hfound
  have hcleared := hall fragment (List.mem_of_find?_eq_some hfragment)
  rwa [hswept.cleared, List.append_nil, hname] at hcleared

theorem fragment_defined_of_getElem? {document : Document} {name : Name} {number : Nat}
    {spread : Spread} (h : (spreadsIn document name)[number]? = some spread) :
    (document.fragment? name).isSome := by
  unfold spreadsIn at h
  cases hfragment : document.fragment? name with
  | none => simp [hfragment] at h
  | some fragment => rfl

/-- Every edge is followed once. -/
theorem count_followed (document : Document) {edge : Edge} {target : Name}
    (h : Leads document edge target) :
    ((followedIn document).map Followed.edge).count edge = 1 := by
  obtain ⟨order, hswept, hdefined⟩ := exists_swept_document document
  obtain ⟨⟨spread, hspread, -⟩, -⟩ := h
  have hcount := hswept.once edge
  have hmem : edge.fragment ∈ order :=
    (hdefined edge.fragment).mpr (fragment_defined_of_getElem? hspread)
  have hnumber : edge.number < (spreadsIn document edge.fragment).length :=
    (List.getElem?_eq_some_iff.mp hspread).choose
  simpa [followedIn, due, hmem, hnumber] using hcount

/-- No spread is followed twice. -/
theorem nodup_followed (document : Document) :
    ((followedIn document).map Followed.edge).Nodup := by
  obtain ⟨order, hswept, -⟩ := exists_swept_document document
  rw [List.nodup_iff_count]
  intro edge
  have hcount := hswept.once edge
  have hdue : due document order edge ≤ 1 := by
    unfold due
    split <;> omega
  unfold followedIn
  omega

theorem followed_sound (document : Document) :
    ∃ order : List Name, order.Nodup ∧
      (∀ name, name ∈ order ↔ (document.fragment? name).isSome) ∧
      ∀ one ∈ followedIn document, one.Sound document order := by
  obtain ⟨order, hswept, hdefined⟩ := exists_swept_document document
  refine ⟨order, hswept.nodup, hdefined, fun one hone => ?_⟩
  have hsound := hswept.sound one hone
  rwa [hswept.cleared, List.append_nil] at hsound

/-- Without the closing edges there is no cycle. -/
theorem acyclic_without_closing (document : Document) :
    Acyclic document fun edge => edge ∉ closingEdges document := by
  obtain ⟨order, hnodup, hdefined, hsound⟩ := followed_sound document
  apply acyclic_of_idxOf_lt
  rintro source target ⟨edge, rfl, hopen, hleads⟩
  have hfollowed : edge ∈ (followedIn document).map Followed.edge := by
    rw [← List.count_pos_iff, count_followed document hleads]
    exact Nat.one_pos
  obtain ⟨one, hone, rfl⟩ := List.mem_map.mp hfollowed
  obtain ⟨⟨spread, hspread, rfl⟩, htarget⟩ := hleads
  have heq : spread = one.spread := by
    have hown := (hsound one hone).spread
    rw [hspread] at hown
    exact Option.some.inj hown
  subst heq
  have hcycle : one.cycle = [] := by
    cases hcycle : one.cycle with
    | nil => rfl
    | cons leg rest =>
        refine absurd (List.mem_map_of_mem (List.mem_filter.mpr ⟨hone, ?_⟩)) hopen
        simp [Followed.closes, hcycle]
  have hsource : one.edge.fragment ∈ order :=
    (hdefined _).mpr (fragment_defined_of_getElem? hspread)
  exact Behind.idxOf_lt hnodup hsource ((hsound one hone).behind hcycle htarget)

/-- A closing spread is an edge of the graph, the last one of the cycle reported, and that cycle is
one of the graph. -/
theorem closing_spec (document : Document) {one : Followed} (hone : one ∈ followedIn document)
    (hcloses : one.closes = true) :
    Leads document one.edge one.spread.name ∧
      one.cycle.getLast? = some ⟨one.edge.fragment, one.spread⟩ ∧
      Relation.TransGen (Linked document fun _ => True) one.spread.name one.spread.name := by
  obtain ⟨order, -, -, hsound⟩ := followed_sound document
  have hne : one.cycle ≠ [] := by simpa [Followed.closes] using hcloses
  obtain ⟨htarget, htrail, hlegs, hlast⟩ := (hsound one hone).closing hne
  refine ⟨⟨⟨one.spread, (hsound one hone).spread, rfl⟩, htarget⟩, hlast, ?_⟩
  cases hcycle : one.cycle with
  | nil => exact absurd hcycle hne
  | cons leg rest =>
      rw [hcycle] at htrail hlegs
      exact htrail.transGen (fun other hother => hlegs other (List.mem_cons_of_mem _ hother)) htarget

theorem filterMap_report?_eq_nil_iff (followed : List Followed) :
    followed.filterMap Followed.report? = [] ↔ ∀ one ∈ followed, one.closes = false := by
  simp [List.filterMap_eq_nil_iff, Followed.report?]

/-- The rule on fragment cycles over a whole document. It reports one cycle for each spread that
closes one. Its search is not cut short by its depth. It follows every edge of the graph of
fragments once, and each record is of the spread it names. The closing spreads are the last ones of
the reported cycles, are edges of the graph, and none of them is reported twice; without them the
graph has no cycle. So there is a report exactly if the graph has a cycle. -/
theorem noFragmentCycles_exact (schema : Schema) (document : Document) (supplied : Variables) :
    document.diagnostics schema [.noFragmentCycles] supplied =
        (followedIn document).filterMap Followed.report? ∧
      (∀ extra cleared, ∀ fragment ∈ document.fragments,
        search document (document.fragments.length + extra) [] cleared fragment =
          searchFrom document cleared fragment) ∧
      (∀ edge target, Leads document edge target →
        ((followedIn document).map Followed.edge).count edge = 1) ∧
      (∀ one ∈ followedIn document,
        (spreadsIn document one.edge.fragment)[one.edge.number]? = some one.spread) ∧
      (∀ one ∈ followedIn document, one.closes = true →
        Leads document one.edge one.spread.name ∧
          one.cycle.getLast? = some ⟨one.edge.fragment, one.spread⟩) ∧
      (closingEdges document).Nodup ∧
      Acyclic document (fun edge => edge ∉ closingEdges document) ∧
      (document.diagnostics schema [.noFragmentCycles] supplied = [] ↔
        Acyclic document fun _ => True) := by
  have hdiagnostics := diagnostics_noFragmentCycles schema document supplied
  refine ⟨hdiagnostics, ?_, fun edge target => count_followed document, ?_, ?_, ?_,
    acyclic_without_closing document, ?_⟩
  · intro extra cleared fragment hfragment
    apply search_add_depth
    · simp
    · refine ⟨by simp [trailNames], ?_⟩
      simp only [trailNames, List.map_nil, List.nil_append, List.mem_singleton, forall_eq]
      unfold Document.fragment?
      rw [List.find?_isSome]
      exact ⟨fragment, hfragment, by simp⟩
  · intro one hone
    obtain ⟨order, -, -, hsound⟩ := followed_sound document
    exact (hsound one hone).spread
  · intro one hone hcloses
    obtain ⟨hleads, hlast, -⟩ := closing_spec document hone hcloses
    exact ⟨hleads, hlast⟩
  · have hsublist : (closingEdges document).Sublist ((followedIn document).map Followed.edge) :=
      List.filter_sublist.map _
    exact (nodup_followed document).sublist hsublist
  · rw [hdiagnostics, filterMap_report?_eq_nil_iff]
    constructor
    · intro hnone
      have hempty : closingEdges document = [] := by
        unfold closingEdges
        rw [List.map_eq_nil_iff, List.filter_eq_nil_iff]
        intro one hone
        simp [hnone one hone]
      have hacyclic := acyclic_without_closing document
      simpa [hempty] using hacyclic
    · intro hacyclic one hone
      cases hcloses : one.closes with
      | false => rfl
      | true => exact absurd (closing_spec document hone hcloses).2.2 (hacyclic _)

end QueryAudit.Cycle
