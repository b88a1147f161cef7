import Mathlib.Data.List.Chain
import QueryAudit.Measure
import QueryAudit.Proofs.FragmentCycles
import QueryAudit.Proofs.Measures
import QueryAudit.Proofs.Reachability

/-!
# What the depth of a document measures

Expanded, a selection set has its spreads replaced by fragments, unless they are being expanded
already. The depth is found with the depths of fragments kept, and a depth is kept even if it was
found while other fragments were open, which counted as nothing. So a kept depth is that of the
chains that go to fragments finished earlier: `Descends` follows a spread only if its fragment comes
after the one it stands in, in a list of the fragments with the last one finished first. Where the
search found a fragment open, the spread closes a cycle. Chains of this kind are chains of the
expansion, and they are all of them if different fragments do not lie on a common cycle.
-/

namespace QueryAudit

namespace Document

/-- In the expansion of a selection set, with fragments of some names being expanded, so many fields
are nested in each other. -/
inductive Expands (document : Document) : List Name → SelectionSet → Nat → Prop
  | nothing {path : List Name} {selections : SelectionSet} : Expands document path selections 0
  | field {path : List Name} {selections inner : SelectionSet} {field : Field} {depth : Nat}
      (hitem : .field field inner ∈ selections) (hinner : Expands document path inner depth) :
      Expands document path selections (depth + 1)
  | inline {path : List Name} {selections inner : SelectionSet} {head : InlineFragment}
      {depth : Nat} (hitem : .inline head inner ∈ selections)
      (hinner : Expands document path inner depth) : Expands document path selections depth
  | spread {path : List Name} {selections : SelectionSet} {spread : Spread} {fragment : Fragment}
      {depth : Nat} (hitem : .spread spread ∈ selections) (hnew : spread.name ∉ path)
      (hfragment : document.fragment? spread.name = some fragment)
      (hinner : Expands document (spread.name :: path) fragment.selections depth) :
      Expands document path selections depth

/-- So many fields are nested in each other, where a spread is followed if its name is in a list of
names, and inside the fragment only to names that come later in the list. -/
inductive Descends (document : Document) : List Name → SelectionSet → Nat → Prop
  | nothing {order : List Name} {selections : SelectionSet} : Descends document order selections 0
  | field {order : List Name} {selections inner : SelectionSet} {field : Field} {depth : Nat}
      (hitem : .field field inner ∈ selections) (hinner : Descends document order inner depth) :
      Descends document order selections (depth + 1)
  | inline {order : List Name} {selections inner : SelectionSet} {head : InlineFragment}
      {depth : Nat} (hitem : .inline head inner ∈ selections)
      (hinner : Descends document order inner depth) : Descends document order selections depth
  | spread {order ahead later : List Name} {selections : SelectionSet} {spread : Spread}
      {fragment : Fragment} {depth : Nat} (hitem : .spread spread ∈ selections)
      (horder : order = ahead ++ spread.name :: later)
      (hfragment : document.fragment? spread.name = some fragment)
      (hinner : Descends document later fragment.selections depth) :
      Descends document order selections depth

/-- The greatest number of fields nested in this way. -/
def Deepest (document : Document) (order : List Name) (selections : SelectionSet)
    (depth : Nat) : Prop :=
  document.Descends order selections depth ∧
    ∀ other, document.Descends order selections other → other ≤ depth

variable {document : Document}

namespace Descends

theorem mono {order : List Name} {selections larger : SelectionSet} {depth : Nat}
    (h : document.Descends order selections depth) (hsubset : selections ⊆ larger) :
    document.Descends order larger depth := by
  cases h with
  | nothing => exact .nothing
  | field hitem hinner => exact .field (hsubset hitem) hinner
  | inline hitem hinner => exact .inline (hsubset hitem) hinner
  | spread hitem horder hfragment hinner => exact .spread (hsubset hitem) horder hfragment hinner

theorem of_cons {order : List Name} {selection : Selection} {rest : List Selection} {depth : Nat}
    (h : document.Descends order (selection :: rest) depth) :
    document.Descends order [selection] depth ∨ document.Descends order rest depth := by
  cases h with
  | nothing => exact .inl .nothing
  | field hitem hinner =>
      rcases List.mem_cons.mp hitem with rfl | hitem
      · exact .inl (.field List.mem_cons_self hinner)
      · exact .inr (.field hitem hinner)
  | inline hitem hinner =>
      rcases List.mem_cons.mp hitem with rfl | hitem
      · exact .inl (.inline List.mem_cons_self hinner)
      · exact .inr (.inline hitem hinner)
  | spread hitem horder hfragment hinner =>
      rcases List.mem_cons.mp hitem with rfl | hitem
      · exact .inl (.spread List.mem_cons_self horder hfragment hinner)
      · exact .inr (.spread hitem horder hfragment hinner)

/-- More names in front leave what there is. -/
theorem prepend {order : List Name} {selections : SelectionSet} {depth : Nat}
    (h : document.Descends order selections depth) (more : List Name) :
    document.Descends (more ++ order) selections depth := by
  induction h with
  | nothing => exact .nothing
  | field hitem _ ih => exact .field hitem ih
  | inline hitem _ ih => exact .inline hitem ih
  | @spread order ahead later _ spread _ _ hitem horder hfragment hinner _ =>
      have hsplit : more ++ order = (more ++ ahead) ++ spread.name :: later := by
        rw [horder, List.append_assoc]
      exact .spread hitem hsplit hfragment hinner

/-- They add nothing to a set that spreads none of them. -/
theorem of_prepend {more order : List Name} {selections : SelectionSet} {depth : Nat}
    (h : document.Descends (more ++ order) selections depth)
    (hnone : ∀ name, SpreadIn name selections → name ∉ more) :
    document.Descends order selections depth := by
  generalize hwhole : more ++ order = whole at h
  induction h with
  | nothing => exact .nothing
  | field hitem _ ih =>
      exact .field hitem (ih (fun name hname => hnone name (.field hitem hname)) hwhole)
  | inline hitem _ ih =>
      exact .inline hitem (ih (fun name hname => hnone name (.inline hitem hname)) hwhole)
  | spread hitem horder hfragment hinner _ =>
      rcases List.append_eq_append_iff.mp (hwhole.trans horder) with
        ⟨between, -, horder⟩ | ⟨between, hmore, hlater⟩
      · exact .spread hitem horder hfragment hinner
      · cases between with
        | nil =>
            rw [← hlater.trans (List.nil_append _)]
            exact .spread hitem (List.nil_append _).symm hfragment hinner
        | cons name rest =>
            have hname := (List.cons.inj hlater).1
            refine absurd ?_ (hnone _ (.here hitem rfl))
            rw [hmore, hname]
            simp

end Descends

/-- A list without repetition is split in one way at a name. -/
theorem split_unique {name : Name} {ahead later other rest : List Name}
    (hnodup : (ahead ++ name :: later).Nodup)
    (h : ahead ++ name :: later = other ++ name :: rest) : later = rest := by
  have hname := (List.nodup_cons.mp (List.nodup_middle.mp hnodup)).1
  rw [List.mem_append, not_or] at hname
  exact ((List.append_cons_inj_of_notMem hname.1 hname.2).mp h).2.2

namespace Deepest

theorem prepend {order : List Name} {selections : SelectionSet} {depth : Nat}
    (h : document.Deepest order selections depth) {more : List Name}
    (hnone : ∀ name, SpreadIn name selections → name ∉ more) :
    document.Deepest (more ++ order) selections depth :=
  ⟨h.1.prepend more, fun other hother => h.2 other (hother.of_prepend hnone)⟩

theorem nil (order : List Name) : document.Deepest order [] 0 := by
  refine ⟨.nothing, fun other hother => ?_⟩
  cases hother with
  | nothing => exact Nat.le_refl _
  | field hitem | inline hitem | spread hitem => cases hitem

theorem cons {order : List Name} {selection : Selection} {rest : List Selection}
    {depth others : Nat} (hfirst : document.Deepest order [selection] depth)
    (hrest : document.Deepest order rest others) :
    document.Deepest order (selection :: rest) (max depth others) := by
  constructor
  · rcases Nat.le_total depth others with hle | hle
    · rw [Nat.max_eq_right hle]
      exact hrest.1.mono (List.subset_cons_self _ _)
    · rw [Nat.max_eq_left hle]
      exact hfirst.1.mono (by simp)
  · intro other hother
    rcases hother.of_cons with hother | hother
    · exact Nat.le_trans (hfirst.2 other hother) (Nat.le_max_left _ _)
    · exact Nat.le_trans (hrest.2 other hother) (Nat.le_max_right _ _)

theorem field {order : List Name} {inner : SelectionSet} {depth : Nat} (chosen : Field)
    (h : document.Deepest order inner depth) :
    document.Deepest order [.field chosen inner] (1 + depth) := by
  rw [Nat.add_comm]
  refine ⟨.field List.mem_cons_self h.1, fun other hother => ?_⟩
  cases hother with
  | nothing => exact Nat.zero_le _
  | field hitem hinner =>
      cases List.mem_singleton.mp hitem
      exact Nat.succ_le_succ (h.2 _ hinner)
  | inline hitem | spread hitem => cases List.mem_singleton.mp hitem

theorem inline {order : List Name} {inner : SelectionSet} {depth : Nat} (head : InlineFragment)
    (h : document.Deepest order inner depth) :
    document.Deepest order [.inline head inner] depth := by
  refine ⟨.inline List.mem_cons_self h.1, fun other hother => ?_⟩
  cases hother with
  | nothing => exact Nat.zero_le _
  | inline hitem hinner =>
      cases List.mem_singleton.mp hitem
      exact h.2 _ hinner
  | field hitem | spread hitem => cases List.mem_singleton.mp hitem

/-- A spread of a name that is not in the list adds nothing. -/
theorem spread_of_not_mem {order : List Name} {spread : Spread} (h : spread.name ∉ order) :
    document.Deepest order [.spread spread] 0 := by
  refine ⟨.nothing, fun other hother => ?_⟩
  cases hother with
  | nothing => exact Nat.le_refl _
  | field hitem | inline hitem => cases List.mem_singleton.mp hitem
  | spread hitem horder =>
      cases List.mem_singleton.mp hitem
      exact absurd (by simp [horder]) h

/-- A spread of a name that is in the list has the depth of its fragment. -/
theorem spread {order ahead later : List Name} {spread : Spread} {fragment : Fragment}
    {depth : Nat} (hnodup : order.Nodup) (horder : order = ahead ++ spread.name :: later)
    (hfragment : document.fragment? spread.name = some fragment)
    (h : document.Deepest later fragment.selections depth) :
    document.Deepest order [.spread spread] depth := by
  refine ⟨.spread List.mem_cons_self horder hfragment h.1, fun other hother => ?_⟩
  cases hother with
  | nothing => exact Nat.zero_le _
  | field hitem | inline hitem => cases List.mem_singleton.mp hitem
  | spread hitem hother hfound hinner =>
      cases List.mem_singleton.mp hitem
      cases hfragment.symm.trans hfound
      rw [horder] at hnodup hother
      rw [← split_unique hnodup hother] at hinner
      exact h.2 _ hinner

end Deepest

end Document

namespace Depth

open Document

/-- The depth of a fragment was found: it counts the chains that go to fragments finished earlier. A
fragment that is spread in it and is not among them closes a cycle. -/
def Finished (document : Document) (order : List Name) (name : Name) (depth : Nat) : Prop :=
  ∃ ahead later fragment, order = ahead ++ name :: later ∧
    document.fragment? name = some fragment ∧
    document.Deepest later fragment.selections depth ∧
    ∀ target, document.SpreadsTo name target → (document.fragment? target).isSome →
      target ∈ later ∨ Relation.ReflTransGen document.SpreadsTo target name

/-- What is known of fragments while some are open, innermost first, and some are finished, last one
first. -/
structure Keeps (document : Document) (memo : Memo) (stack order : List Name) : Prop where
  opened : ∀ name, memo.find? name = some .open ↔ name ∈ stack
  found : ∀ name depth, memo.find? name = some (.found depth) →
    Finished document order name depth
  known : ∀ name ∈ order, ∃ depth, memo.find? name = some (.found depth)
  nodup : order.Nodup
  distinct : stack.Nodup
  defined : ∀ name ∈ stack, (document.fragment? name).isSome
  linked : stack.IsChain fun inner outer => document.SpreadsTo outer inner
  closed : ∀ source ∈ order, ∀ target, document.SpreadsTo source target →
    (document.fragment? target).isSome → target ∈ order ∨ target ∈ stack

/-- What comes of finding the depth of a selection set: the fragments finished meanwhile. -/
structure Reads (document : Document) (stack order : List Name) (selections : SelectionSet)
    (outcome : Memo × Nat) (finished : List Name) : Prop where
  keeps : Keeps document outcome.1 stack (finished ++ order)
  deepest : document.Deepest (finished ++ order) selections outcome.2
  settled : ∀ target, SpreadIn target selections → (document.fragment? target).isSome →
    target ∈ finished ++ order ∨ target ∈ stack
  reached : ∀ name ∈ finished, document.ReachesName selections name

variable {document : Document} {memo : Memo} {stack order : List Name}

/-- An open fragment leads to the innermost one. -/
theorem reaches_top {top : Name} {below : List Name}
    (h : (top :: below).IsChain fun inner outer => document.SpreadsTo outer inner) {name : Name}
    (hname : name ∈ top :: below) : Relation.ReflTransGen document.SpreadsTo name top := by
  induction below generalizing top with
  | nil =>
      rw [List.mem_singleton.mp hname]
  | cons next rest ih =>
      obtain ⟨hnext, hrest⟩ := List.isChain_cons_cons.mp h
      rcases List.mem_cons.mp hname with rfl | hname
      · exact .refl
      · exact (ih hrest hname).tail hnext

namespace Keeps

theorem not_mem_order (h : Keeps document memo stack order) {name : Name} (hname : name ∈ stack) :
    name ∉ order := by
  intro horder
  obtain ⟨depth, hdepth⟩ := h.known name horder
  cases ((h.opened name).mpr hname).symm.trans hdepth

theorem isSome_of_mem_order (h : Keeps document memo stack order) {name : Name}
    (hname : name ∈ order) : (document.fragment? name).isSome := by
  obtain ⟨depth, hdepth⟩ := h.known name hname
  obtain ⟨-, -, fragment, -, hfragment, -⟩ := h.found name depth hdepth
  rw [hfragment]
  rfl

theorem not_mem_of_unknown (h : Keeps document memo stack order) {name : Name}
    (hunknown : memo.find? name = none) : name ∉ stack ∧ name ∉ order := by
  constructor
  · intro hstack
    cases hunknown.symm.trans ((h.opened name).mpr hstack)
  · intro horder
    obtain ⟨depth, hdepth⟩ := h.known name horder
    cases hunknown.symm.trans hdepth

/-- A fragment is opened that is spread in the innermost open one. -/
theorem enter (h : Keeps document memo stack order) {name : Name}
    (hunknown : memo.find? name = none) (hdefined : (document.fragment? name).isSome)
    (hhost : ∀ host ∈ stack.head?, document.SpreadsTo host name) :
    Keeps document (memo.insert name .open) (name :: stack) order := by
  obtain ⟨hstack, horder⟩ := h.not_mem_of_unknown hunknown
  refine ⟨?opened, ?found, ?known, h.nodup, List.nodup_cons.mpr ⟨hstack, h.distinct⟩, ?defined,
    ?linked, ?closed⟩
  case opened =>
    intro other
    rw [NameTable.find?_insert, List.mem_cons]
    by_cases hother : name = other
    · simp [hother]
    · simp [hother, Ne.symm hother, h.opened other]
  case found =>
    intro other depth hother
    rw [NameTable.find?_insert] at hother
    split at hother
    · cases hother
    · exact h.found other depth hother
  case known =>
    intro other hother
    have hne : name ≠ other := fun heq => horder (heq ▸ hother)
    rw [NameTable.find?_insert, if_neg hne]
    exact h.known other hother
  case defined =>
    intro other hother
    rcases List.mem_cons.mp hother with rfl | hother
    · exact hdefined
    · exact h.defined other hother
  case linked =>
    cases stack with
    | nil => exact List.isChain_singleton _
    | cons host below => exact List.isChain_cons_cons.mpr ⟨hhost host rfl, h.linked⟩
  case closed =>
    intro source hsource target hspread htarget
    exact (h.closed source hsource target hspread htarget).imp_right (List.mem_cons_of_mem _)

/-- The innermost open fragment is finished. -/
theorem leave {name : Name} {fragment : Fragment} {depth : Nat}
    (h : Keeps document memo (name :: stack) order)
    (hfragment : document.fragment? name = some fragment)
    (hdeepest : document.Deepest order fragment.selections depth)
    (hsettled : ∀ target, SpreadIn target fragment.selections →
      (document.fragment? target).isSome → target ∈ order ∨ target ∈ name :: stack) :
    Keeps document (memo.insert name (.found depth)) stack (name :: order) := by
  obtain ⟨hstack, hdistinct⟩ := List.nodup_cons.mp h.distinct
  have horder : name ∉ order := h.not_mem_order List.mem_cons_self
  have hspreads : ∀ target, document.SpreadsTo name target → (document.fragment? target).isSome →
      target ∈ order ∨ target ∈ name :: stack := by
    rintro target ⟨same, hsame, hspread⟩ htarget
    cases hfragment.symm.trans hsame
    exact hsettled target hspread htarget
  refine ⟨?opened, ?found, ?known, List.nodup_cons.mpr ⟨horder, h.nodup⟩, hdistinct,
    fun other hother => h.defined other (List.mem_cons_of_mem _ hother), h.linked.tail, ?closed⟩
  case opened =>
    intro other
    have hopened := h.opened other
    rw [NameTable.find?_insert]
    by_cases hother : name = other
    · subst hother
      simp [hstack]
    · simpa [hother, Ne.symm hother] using hopened
  case found =>
    intro other found hother
    rw [NameTable.find?_insert] at hother
    split at hother
    · rename_i heq
      cases hother
      subst heq
      refine ⟨[], order, fragment, rfl, hfragment, hdeepest, fun target hspread htarget => ?_⟩
      exact (hspreads target hspread htarget).imp_right (reaches_top h.linked)
    · obtain ⟨ahead, later, same, hsplit, hrest⟩ := h.found other found hother
      exact ⟨name :: ahead, later, same, by rw [hsplit, List.cons_append], hrest⟩
  case known =>
    intro other hother
    rw [NameTable.find?_insert]
    split
    · exact ⟨depth, rfl⟩
    · rename_i hne
      exact h.known other ((List.mem_cons.mp hother).resolve_left (Ne.symm hne))
  case closed =>
    intro source hsource target hspread htarget
    have hplaces : target ∈ order ∨ target ∈ name :: stack := by
      rcases List.mem_cons.mp hsource with rfl | hsource
      · exact hspreads target hspread htarget
      · exact h.closed source hsource target hspread htarget
    rcases hplaces with hfinished | hopen
    · exact .inl (List.mem_cons_of_mem _ hfinished)
    · rcases List.mem_cons.mp hopen with rfl | hopen
      · exact .inl List.mem_cons_self
      · exact .inr hopen

end Keeps

/-- What was found for a set stands when more fragments are finished. -/
theorem Reads.deepest_later {selections : SelectionSet} {outcome : Memo × Nat}
    {finished more : List Name} {later : Memo}
    (h : Reads document stack order selections outcome finished)
    (hlater : Keeps document later stack (more ++ (finished ++ order))) :
    document.Deepest (more ++ (finished ++ order)) selections outcome.2 := by
  refine h.deepest.prepend fun name hname hmore => ?_
  have hdefined := hlater.isSome_of_mem_order (List.mem_append_left _ hmore)
  rcases h.settled name hname hdefined with hfinished | hopen
  · exact (List.nodup_append.mp hlater.nodup).2.2 name hmore name hfinished rfl
  · exact hlater.not_mem_order hopen (List.mem_append_left _ hmore)

/-- While some fragments are open, the depth of a spread is found. The spread stands in the
innermost open fragment, if there is one. -/
def Finds (document : Document) (stack : List Name) (spread : Memo → Name → Memo × Nat) : Prop :=
  ∀ memo order (chosen : Spread), Keeps document memo stack order →
    (∀ host ∈ stack.head?, document.SpreadsTo host chosen.name) →
    ∃ finished, Reads document stack order [.spread chosen] (spread memo chosen.name) finished

section

variable {spread : Memo → Name → Memo × Nat}

theorem reads_nil (hkeeps : Keeps document memo stack order) :
    Reads document stack order [] (memo, 0) [] where
  keeps := hkeeps
  deepest := .nil _
  settled := by
    intro target hspread
    cases hspread with
    | here hitem | field hitem | inline hitem => cases hitem
  reached := by simp

/-- What comes of one item and then of others. -/
theorem Reads.cons {selection : Selection} {rest : List Selection} {outcome later : Memo × Nat}
    {finished more : List Name} (hfirst : Reads document stack order [selection] outcome finished)
    (hrest : Reads document stack (finished ++ order) rest later more) :
    Reads document stack order (selection :: rest) (later.1, max outcome.2 later.2)
      (more ++ finished) where
  keeps := by
    rw [List.append_assoc]
    exact hrest.keeps
  deepest := by
    rw [List.append_assoc]
    exact (hfirst.deepest_later hrest.keeps).cons hrest.deepest
  settled := by
    intro target hspread hdefined
    rw [List.append_assoc]
    have hparts : SpreadIn target [selection] ∨ SpreadIn target rest := by
      rw [spreadIn_iff] at hspread
      rw [spreadIn_iff, spreadIn_iff]
      simpa [SelectionSet.spreads] using hspread
    rcases hparts with hspread | hspread
    · exact (hfirst.settled target hspread hdefined).imp_left (List.mem_append_right _)
    · exact hrest.settled target hspread hdefined
  reached := by
    intro name hname
    rcases List.mem_append.mp hname with hname | hname
    · obtain ⟨first, hspread, hchain⟩ := hrest.reached name hname
      exact ⟨first, hspread.mono (List.subset_cons_self _ _), hchain⟩
    · obtain ⟨first, hspread, hchain⟩ := hfirst.reached name hname
      exact ⟨first, hspread.mono (by simp), hchain⟩

theorem Reads.field {inner : SelectionSet} {outcome : Memo × Nat} {finished : List Name}
    (chosen : Field) (h : Reads document stack order inner outcome finished) :
    Reads document stack order [.field chosen inner] (outcome.1, 1 + outcome.2) finished where
  keeps := h.keeps
  deepest := h.deepest.field chosen
  settled := by
    intro target hspread
    cases hspread with
    | field hitem hinner =>
        cases List.mem_singleton.mp hitem
        exact h.settled target hinner
    | here hitem | inline hitem => cases List.mem_singleton.mp hitem
  reached := by
    intro name hname
    obtain ⟨first, hspread, hchain⟩ := h.reached name hname
    exact ⟨first, .field List.mem_cons_self hspread, hchain⟩

theorem Reads.inline {inner : SelectionSet} {outcome : Memo × Nat} {finished : List Name}
    (head : InlineFragment) (h : Reads document stack order inner outcome finished) :
    Reads document stack order [.inline head inner] outcome finished where
  keeps := h.keeps
  deepest := h.deepest.inline head
  settled := by
    intro target hspread
    cases hspread with
    | inline hitem hinner =>
        cases List.mem_singleton.mp hitem
        exact h.settled target hinner
    | here hitem | field hitem => cases List.mem_singleton.mp hitem
  reached := by
    intro name hname
    obtain ⟨first, hspread, hchain⟩ := h.reached name hname
    exact ⟨first, .inline List.mem_cons_self hspread, hchain⟩

mutual

theorem Finds.ofSelection (h : Finds document stack spread) {memo : Memo} {order : List Name}
    (selection : Selection) (hkeeps : Keeps document memo stack order)
    (hhost : ∀ host ∈ stack.head?, ∀ target, SpreadIn target [selection] →
      document.SpreadsTo host target) :
    ∃ finished, Reads document stack order [selection] (ofSelection spread memo selection)
      finished := by
  cases selection with
  | field chosen inner =>
      obtain ⟨finished, hreads⟩ := h.ofSelections inner hkeeps fun host hmem target hspread =>
        hhost host hmem target (.field List.mem_cons_self hspread)
      exact ⟨finished, hreads.field chosen⟩
  | inline head inner =>
      obtain ⟨finished, hreads⟩ := h.ofSelections inner hkeeps fun host hmem target hspread =>
        hhost host hmem target (.inline List.mem_cons_self hspread)
      exact ⟨finished, hreads.inline head⟩
  | spread chosen =>
      exact h memo order chosen hkeeps fun host hmem =>
        hhost host hmem chosen.name (.here List.mem_cons_self rfl)

theorem Finds.ofSelections (h : Finds document stack spread) {memo : Memo} {order : List Name}
    (selections : List Selection) (hkeeps : Keeps document memo stack order)
    (hhost : ∀ host ∈ stack.head?, ∀ target, SpreadIn target selections →
      document.SpreadsTo host target) :
    ∃ finished, Reads document stack order selections (ofSelections spread memo selections)
      finished := by
  cases selections with
  | nil => exact ⟨[], reads_nil hkeeps⟩
  | cons selection rest =>
      obtain ⟨finished, hfirst⟩ := h.ofSelection selection hkeeps fun host hmem target hspread =>
        hhost host hmem target (hspread.mono (by simp))
      obtain ⟨more, hrest⟩ := h.ofSelections rest hfirst.keeps fun host hmem target hspread =>
        hhost host hmem target (hspread.mono (List.subset_cons_self _ _))
      exact ⟨more ++ finished, hfirst.cons hrest⟩

end

end

/-- An open fragment is a level deeper, and open fragments have different names. -/
theorem finds_ofFragment (document : Document) (rounds : Nat) {stack : List Name}
    (hrounds : document.fragments.length + 1 ≤ rounds + stack.length) :
    Finds document stack (ofFragment document rounds) := by
  induction rounds generalizing stack with
  | zero =>
      intro memo order chosen hkeeps
      have hlength := Cycle.length_le_of_defined hkeeps.distinct hkeeps.defined
      omega
  | succ rounds ih =>
      intro memo order chosen hkeeps hhost
      have hself : ∀ target, SpreadIn target [.spread chosen] → target = chosen.name := by
        intro target hspread
        cases hspread with
        | here hitem hname =>
            cases List.mem_singleton.mp hitem
            exact hname.symm
        | field hitem | inline hitem => cases List.mem_singleton.mp hitem
      unfold ofFragment
      cases hmemo : memo.find? chosen.name with
      | some known =>
          cases known with
          | found depth =>
              obtain ⟨ahead, later, fragment, hsplit, hfragment, hdeepest, -⟩ :=
                hkeeps.found chosen.name depth hmemo
              refine ⟨[], hkeeps, .spread hkeeps.nodup hsplit hfragment hdeepest, ?_, by simp⟩
              intro target hspread _
              rw [hself target hspread, hsplit]
              simp
          | «open» =>
              have hopen := (hkeeps.opened chosen.name).mp hmemo
              refine ⟨[], hkeeps, .spread_of_not_mem (hkeeps.not_mem_order hopen), ?_, by simp⟩
              intro target hspread _
              rw [hself target hspread]
              exact .inr hopen
      | none =>
          have hunknown := hkeeps.not_mem_of_unknown hmemo
          cases hfragment : document.fragment? chosen.name with
          | none =>
              refine ⟨[], hkeeps, .spread_of_not_mem hunknown.2, ?_, by simp⟩
              intro target hspread hdefined
              rw [hself target hspread, hfragment] at hdefined
              cases hdefined
          | some fragment =>
              have hdefined : (document.fragment? chosen.name).isSome := by rw [hfragment]; rfl
              have hinner : Finds document (chosen.name :: stack) (ofFragment document rounds) :=
                ih (by rw [List.length_cons]; omega)
              obtain ⟨finished, hreads⟩ := hinner.ofSelections fragment.selections
                (hkeeps.enter hmemo hdefined hhost) fun host hmem target hspread => by
                  cases hmem
                  exact ⟨fragment, hfragment, hspread⟩
              have hleft := hreads.keeps.leave hfragment hreads.deepest hreads.settled
              refine ⟨chosen.name :: finished, hleft, ?_, ?_, ?_⟩
              · exact .spread hleft.nodup (List.nil_append _).symm hfragment hreads.deepest
              · intro target hspread _
                rw [hself target hspread]
                exact .inl List.mem_cons_self
              · intro name hname
                refine ⟨chosen.name, .here List.mem_cons_self rfl, ?_⟩
                rcases List.mem_cons.mp hname with rfl | hname
                · exact .refl
                · obtain ⟨first, hspread, hchain⟩ := hreads.reached name hname
                  exact hchain.head ⟨fragment, hfragment, hspread⟩

/-- What comes of finding the depths of some operations, one after the other. -/
theorem exists_ofOperations (hkeeps : Keeps document memo [] order) (operations : List Operation) :
    ∃ last finished, Keeps document last [] (finished ++ order) ∧
      (∀ operation ∈ operations, ∀ target, SpreadIn target operation.selections →
        (document.fragment? target).isSome → target ∈ finished ++ order) ∧
      (∀ name ∈ finished, ∃ operation ∈ operations,
        document.ReachesName operation.selections name) ∧
      (∀ operation ∈ operations, ∀ depth,
        document.Descends (finished ++ order) operation.selections depth →
        depth ≤ ofOperations document memo operations) ∧
      (ofOperations document memo operations = 0 ∨ ∃ operation ∈ operations,
        document.Descends (finished ++ order) operation.selections
          (ofOperations document memo operations)) := by
  induction operations generalizing memo order with
  | nil => exact ⟨memo, [], hkeeps, by simp, by simp, by simp, .inl rfl⟩
  | cons operation rest ih =>
      have hfinds : Finds document [] (ofFragment document (document.fragments.length + 1)) :=
        finds_ofFragment document _ (Nat.le_add_right _ _)
      obtain ⟨finished, hreads⟩ := hfinds.ofSelections operation.selections hkeeps (by simp)
      rw [ofOperations]
      generalize Depth.ofSelections (ofFragment document (document.fragments.length + 1)) memo
        operation.selections = outcome at hreads
      obtain ⟨next, deep⟩ := outcome
      dsimp only
      obtain ⟨last, more, hlast, hsettled, hreached, hdeepest, hattained⟩ := ih hreads.keeps
      have hfirst := hreads.deepest_later hlast
      refine ⟨last, more ++ finished, ?_⟩
      rw [List.append_assoc]
      refine ⟨hlast, ?settled, ?reached, ?deepest, ?attained⟩
      case settled =>
        intro other hother target hspread hdefined
        rcases List.mem_cons.mp hother with rfl | hother
        · have hplaces := hreads.settled target hspread hdefined
          exact List.mem_append_right _ (hplaces.resolve_right List.not_mem_nil)
        · exact hsettled other hother target hspread hdefined
      case reached =>
        intro name hname
        rcases List.mem_append.mp hname with hname | hname
        · obtain ⟨other, hother, hreaches⟩ := hreached name hname
          exact ⟨other, List.mem_cons_of_mem _ hother, hreaches⟩
        · exact ⟨operation, List.mem_cons_self, hreads.reached name hname⟩
      case deepest =>
        intro other hother depth hdescends
        rcases List.mem_cons.mp hother with rfl | hother
        · exact Nat.le_trans (hfirst.2 depth hdescends) (Nat.le_max_left _ _)
        · exact Nat.le_trans (hdeepest other hother depth hdescends) (Nat.le_max_right _ _)
      case attained =>
        rcases Nat.le_total deep (ofOperations document next rest) with hle | hle
        · rw [Nat.max_eq_right hle]
          refine hattained.imp_right ?_
          rintro ⟨other, hother, hdescends⟩
          exact ⟨other, List.mem_cons_of_mem _ hother, hdescends⟩
        · rw [Nat.max_eq_left hle]
          exact .inr ⟨operation, List.mem_cons_self, hfirst.1⟩

theorem keeps_nil (document : Document) : Keeps document [] [] [] where
  opened := by simp [NameTable.find?]
  found := by simp [NameTable.find?]
  known := by simp
  nodup := List.nodup_nil
  distinct := List.nodup_nil
  defined := by simp
  linked := List.isChain_nil
  closed := by simp

end Depth

/-! ## The expansion -/

namespace Document

/-- A chain that goes down a list without repetition never comes back to a name. -/
theorem Descends.expands {document : Document} {order : List Name} {selections : SelectionSet}
    {depth : Nat} (h : document.Descends order selections depth) (hnodup : order.Nodup)
    {path : List Name} (hpath : ∀ name ∈ order, name ∉ path) :
    document.Expands path selections depth := by
  induction h generalizing path with
  | nothing => exact .nothing
  | field hitem _ ih => exact .field hitem (ih hnodup hpath)
  | inline hitem _ ih => exact .inline hitem (ih hnodup hpath)
  | @spread order ahead later _ spread _ _ hitem horder hfragment _ ih =>
      subst horder
      have hlater := List.nodup_cons.mp (List.nodup_append.mp hnodup).2.1
      refine .spread hitem (hpath _ (by simp)) hfragment (ih hlater.2 fun name hname => ?_)
      rw [List.mem_cons, not_or]
      exact ⟨fun heq => hlater.1 (heq ▸ hname), hpath name (by simp [hname])⟩

/-- Different fragments that an operation reaches do not lie on a common cycle. -/
def LoneCycles (document : Document) : Prop :=
  ∀ operation ∈ document.operations, ∀ a b, document.ReachesName operation.selections a →
    Relation.ReflTransGen document.SpreadsTo a b → Relation.ReflTransGen document.SpreadsTo b a →
    a = b

/-- Fragments reached from operations, each before those it spreads, except for cycles. -/
structure Finishing (document : Document) (order : List Name) : Prop where
  nodup : order.Nodup
  mem_iff : ∀ name, name ∈ order ↔ (document.fragment? name).isSome ∧
    ∃ operation ∈ document.operations, document.ReachesName operation.selections name
  cuts : ∀ ahead host later target, order = ahead ++ host :: later →
    document.SpreadsTo host target → (document.fragment? target).isSome →
    target ∈ later ∨ Relation.ReflTransGen document.SpreadsTo target host

/-- If no cycle goes through different fragments, every chain of the expansion goes down the
list. -/
theorem Expands.descends {document : Document} {order : List Name}
    (horder : document.Finishing order) (hlone : document.LoneCycles) {path : List Name}
    {selections : SelectionSet} {depth : Nat} (h : document.Expands path selections depth)
    {front current : List Name} (hcurrent : order = front ++ current)
    (hselections : ∀ target, SpreadIn target selections → (document.fragment? target).isSome →
      target ∈ current ∨ target ∈ path) :
    document.Descends current selections depth := by
  induction h generalizing front current with
  | nothing => exact .nothing
  | field hitem _ ih =>
      exact .field hitem (ih hcurrent fun target hspread =>
        hselections target (.field hitem hspread))
  | inline hitem _ ih =>
      exact .inline hitem (ih hcurrent fun target hspread =>
        hselections target (.inline hitem hspread))
  | @spread path _ spread fragment _ hitem hnew hfragment _ ih =>
      have hdefined : (document.fragment? spread.name).isSome := by rw [hfragment]; rfl
      have hmem := (hselections spread.name (.here hitem rfl) hdefined).resolve_right hnew
      obtain ⟨ahead, later, rfl⟩ := List.append_of_mem hmem
      have hsplit : order = (front ++ ahead) ++ spread.name :: later := by
        rw [hcurrent, List.append_assoc]
      refine .spread hitem rfl hfragment (ih (hsplit.trans (List.append_cons _ _ _)) ?_)
      intro target hspread htarget
      have hstep : document.SpreadsTo spread.name target := ⟨fragment, hfragment, hspread⟩
      refine (horder.cuts _ _ _ target hsplit hstep htarget).imp_right fun hback => ?_
      -- a cycle through both, so they are the same
      obtain ⟨-, operation, hoperation, hreaches⟩ :=
        (horder.mem_iff spread.name).mp (by rw [hsplit]; simp)
      rw [← hlone operation hoperation _ _ hreaches (.single hstep) hback]
      exact List.mem_cons_self

end Document

/-! ## Rearranged documents -/

/-- Two selection sets have the same items in some order, and so have those inside of them. -/
inductive SelectionSet.Shuffled : SelectionSet → SelectionSet → Prop
  | nil : Shuffled [] []
  | field {field : Field} {inner other rest others : SelectionSet} (hinner : Shuffled inner other)
      (hrest : Shuffled rest others) :
      Shuffled (.field field inner :: rest) (.field field other :: others)
  | inline {head : InlineFragment} {inner other rest others : SelectionSet}
      (hinner : Shuffled inner other) (hrest : Shuffled rest others) :
      Shuffled (.inline head inner :: rest) (.inline head other :: others)
  | spread {spread : Spread} {rest others : SelectionSet} (hrest : Shuffled rest others) :
      Shuffled (.spread spread :: rest) (.spread spread :: others)
  | swap {first second : Selection} {rest : SelectionSet} :
      Shuffled (first :: second :: rest) (second :: first :: rest)
  | trans {first second third : SelectionSet} (hfirst : Shuffled first second)
      (hsecond : Shuffled second third) : Shuffled first third

namespace SelectionSet.Shuffled

theorem refl : (selections : SelectionSet) → Shuffled selections selections
  | [] => .nil
  | .field _ inner :: rest => .field (refl inner) (refl rest)
  | .inline _ inner :: rest => .inline (refl inner) (refl rest)
  | .spread _ :: rest => .spread (refl rest)

/-- Two items are the same up to the order of what is inside. -/
inductive Alike : Selection → Selection → Prop
  | field {field : Field} {inner other : SelectionSet} (hinner : Shuffled inner other) :
      Alike (.field field inner) (.field field other)
  | inline {head : InlineFragment} {inner other : SelectionSet} (hinner : Shuffled inner other) :
      Alike (.inline head inner) (.inline head other)
  | spread {spread : Spread} : Alike (.spread spread) (.spread spread)

theorem Alike.refl (selection : Selection) : Alike selection selection := by
  cases selection with
  | field field inner => exact .field (.refl inner)
  | spread spread => exact .spread
  | inline head inner => exact .inline (.refl inner)

theorem Alike.trans {first second third : Selection} (hfirst : Alike first second)
    (hsecond : Alike second third) : Alike first third := by
  cases hfirst with
  | field hinner =>
      cases hsecond with
      | field hother => exact .field (hinner.trans hother)
  | inline hinner =>
      cases hsecond with
      | inline hother => exact .inline (hinner.trans hother)
  | spread => exact hsecond

theorem Alike.cons {first second : Selection} {rest others : SelectionSet}
    (hfirst : Alike first second) (hrest : ∀ item ∈ rest, ∃ other ∈ others, Alike item other) :
    ∀ item ∈ first :: rest, ∃ other ∈ second :: others, Alike item other := by
  intro item hitem
  rcases List.mem_cons.mp hitem with rfl | hitem
  · exact ⟨second, List.mem_cons_self, hfirst⟩
  · obtain ⟨other, hother, halike⟩ := hrest item hitem
    exact ⟨other, List.mem_cons_of_mem _ hother, halike⟩

theorem exists_alike {selections shuffled : SelectionSet} (h : Shuffled selections shuffled) :
    ∀ item ∈ selections, ∃ other ∈ shuffled, Alike item other := by
  induction h with
  | nil => simp
  | field hinner _ _ ih => exact (Alike.field hinner).cons ih
  | inline hinner _ _ ih => exact (Alike.inline hinner).cons ih
  | spread _ ih => exact Alike.spread.cons ih
  | swap =>
      intro item hitem
      refine ⟨item, ?_, .refl item⟩
      simp only [List.mem_cons] at hitem ⊢
      tauto
  | trans _ _ ihfirst ihsecond =>
      intro item hitem
      obtain ⟨between, hbetween, halike⟩ := ihfirst item hitem
      obtain ⟨other, hother, hagain⟩ := ihsecond between hbetween
      exact ⟨other, hother, halike.trans hagain⟩

theorem spreadIn {name : Name} {selections shuffled : SelectionSet}
    (hspread : Document.SpreadIn name selections) (h : Shuffled selections shuffled) :
    Document.SpreadIn name shuffled := by
  induction hspread generalizing shuffled with
  | here hitem hname =>
      obtain ⟨other, hother, halike⟩ := h.exists_alike _ hitem
      cases halike with
      | spread => exact .here hother hname
  | field hitem _ ih =>
      obtain ⟨other, hother, halike⟩ := h.exists_alike _ hitem
      cases halike with
      | field hinner => exact .field hother (ih hinner)
  | inline hitem _ ih =>
      obtain ⟨other, hother, halike⟩ := h.exists_alike _ hitem
      cases halike with
      | inline hinner => exact .inline hother (ih hinner)

end SelectionSet.Shuffled

namespace Document

/-- Each operation of a document is among those of another, and so is the first fragment of each
name, up to the order inside their selection sets. -/
structure Matches (document other : Document) : Prop where
  operations : ∀ operation ∈ document.operations, ∃ same ∈ other.operations,
    SelectionSet.Shuffled operation.selections same.selections
  fragments : ∀ name fragment, document.fragment? name = some fragment →
    ∃ same, other.fragment? name = some same ∧
      SelectionSet.Shuffled fragment.selections same.selections

namespace Matches

variable {document other : Document}

theorem expands (h : document.Matches other) {path : List Name}
    {selections shuffled : SelectionSet} {depth : Nat}
    (hexpands : document.Expands path selections depth)
    (hshuffled : SelectionSet.Shuffled selections shuffled) :
    other.Expands path shuffled depth := by
  induction hexpands generalizing shuffled with
  | nothing => exact .nothing
  | field hitem _ ih =>
      obtain ⟨item, hsame, halike⟩ := hshuffled.exists_alike _ hitem
      cases halike with
      | field hinner => exact .field hsame (ih hinner)
  | inline hitem _ ih =>
      obtain ⟨item, hsame, halike⟩ := hshuffled.exists_alike _ hitem
      cases halike with
      | inline hinner => exact .inline hsame (ih hinner)
  | spread hitem hnew hfragment _ ih =>
      obtain ⟨item, hsame, halike⟩ := hshuffled.exists_alike _ hitem
      obtain ⟨same, hfound, hinner⟩ := h.fragments _ _ hfragment
      cases halike with
      | spread => exact .spread hsame hnew hfound (ih hinner)

theorem spreadsTo (h : document.Matches other) {source target : Name}
    (hstep : document.SpreadsTo source target) : other.SpreadsTo source target := by
  obtain ⟨fragment, hfragment, hspread⟩ := hstep
  obtain ⟨same, hfound, hinner⟩ := h.fragments _ _ hfragment
  exact ⟨same, hfound, hinner.spreadIn hspread⟩

theorem loneCycles (h : document.Matches other) (hlone : other.LoneCycles) :
    document.LoneCycles := by
  rintro operation hoperation a b ⟨first, hspread, hchain⟩ hthere hback
  obtain ⟨same, hsame, hshuffled⟩ := h.operations operation hoperation
  have hmono : ∀ {source target}, Relation.ReflTransGen document.SpreadsTo source target →
      Relation.ReflTransGen other.SpreadsTo source target :=
    fun chain => chain.lift id fun _ _ => h.spreadsTo
  exact hlone same hsame a b ⟨first, hshuffled.spreadIn hspread, hmono hchain⟩ (hmono hthere)
    (hmono hback)

end Matches

end Document

/-! ## The depth -/

/-- When all operations are done, nothing is open. -/
theorem Depth.Keeps.finishing {document : Document} {memo : Depth.Memo} {order : List Name}
    (h : Depth.Keeps document memo [] order)
    (hsettled : ∀ operation ∈ document.operations, ∀ target,
      Document.SpreadIn target operation.selections → (document.fragment? target).isSome →
      target ∈ order)
    (hreached : ∀ name ∈ order, ∃ operation ∈ document.operations,
      document.ReachesName operation.selections name) : document.Finishing order where
  nodup := h.nodup
  mem_iff := by
    intro name
    constructor
    · exact fun hname => ⟨h.isSome_of_mem_order hname, hreached name hname⟩
    · rintro ⟨hdefined, operation, hoperation, first, hspread, hchain⟩
      induction hchain with
      | refl => exact hsettled operation hoperation first hspread hdefined
      | @tail between last _ hstep ih =>
          obtain ⟨fragment, hfragment, -⟩ := id hstep
          have hbetween : between ∈ order := ih (by rw [hfragment]; rfl)
          exact (h.closed between hbetween last hstep hdefined).resolve_right List.not_mem_nil
  cuts := by
    intro ahead host later target horder hstep hdefined
    obtain ⟨depth, hdepth⟩ := h.known host (by simp [horder])
    obtain ⟨before, rest, fragment, hsplit, -, -, hcuts⟩ := h.found host depth hdepth
    have hnodup := h.nodup
    rw [horder] at hsplit hnodup
    rw [Document.split_unique hnodup hsplit]
    exact hcuts target hstep hdefined

namespace Document

theorem exists_finishing (document : Document) :
    ∃ order, document.Finishing order ∧
      (∀ operation ∈ document.operations, ∀ depth,
        document.Descends order operation.selections depth → depth ≤ document.depth) ∧
      (document.depth = 0 ∨ ∃ operation ∈ document.operations,
        document.Descends order operation.selections document.depth) := by
  obtain ⟨last, order, hkeeps, hsettled, hreached, hdeepest, hattained⟩ :=
    Depth.exists_ofOperations (Depth.keeps_nil document) document.operations
  rw [List.append_nil] at hkeeps hsettled hdeepest hattained
  exact ⟨order, hkeeps.finishing hsettled hreached, hdeepest, hattained⟩

/-- The depth is that of a chain in the expansion. -/
theorem exists_expands (document : Document) :
    document.depth = 0 ∨ ∃ operation ∈ document.operations,
      document.Expands [] operation.selections document.depth := by
  obtain ⟨order, horder, -, hattained⟩ := document.exists_finishing
  refine hattained.imp_right ?_
  rintro ⟨operation, hoperation, hdescends⟩
  exact ⟨operation, hoperation, hdescends.expands horder.nodup fun _ _ => List.not_mem_nil⟩

theorem LoneCycles.le_depth {document : Document} (h : document.LoneCycles)
    {operation : Operation} (hoperation : operation ∈ document.operations) {depth : Nat}
    (hexpands : document.Expands [] operation.selections depth) : depth ≤ document.depth := by
  obtain ⟨order, horder, hdeepest, -⟩ := document.exists_finishing
  refine hdeepest operation hoperation depth
    (hexpands.descends horder h (List.nil_append order).symm ?_)
  intro target hspread hdefined
  exact .inl ((horder.mem_iff target).mpr ⟨hdefined, operation, hoperation, target, hspread, .refl⟩)

theorem Matches.depth_le {document other : Document} (h : document.Matches other)
    (hlone : other.LoneCycles) : document.depth ≤ other.depth := by
  rcases document.exists_expands with hzero | ⟨operation, hoperation, hexpands⟩
  · omega
  · obtain ⟨same, hsame, hshuffled⟩ := h.operations operation hoperation
    exact hlone.le_depth hsame (h.expands hexpands hshuffled)

end Document

/-- The depth that an audit finds. The fragments reached from operations are finished in some order.
In the list of them with the last one first, a fragment that is spread in another comes later than
that one, or else closes a cycle with it; and the depth is the greatest number of nested fields
where spreads are followed down this list. That is a number of nested fields in the expansion of
some operation, if there is one. If no cycle goes through different fragments that an operation
reaches, it is the greatest such number, and it does not depend on the order of definitions and of
selections. -/
theorem depth_cuts_cycles (document : Document) :
    (∃ order : List Name, order.Nodup ∧
      (∀ name, name ∈ order ↔ (document.fragment? name).isSome ∧
        ∃ operation ∈ document.operations, document.ReachesName operation.selections name) ∧
      (∀ ahead host later target, order = ahead ++ host :: later →
        document.SpreadsTo host target → (document.fragment? target).isSome →
        target ∈ later ∨ Relation.ReflTransGen document.SpreadsTo target host) ∧
      (∀ operation ∈ document.operations, ∀ depth,
        document.Descends order operation.selections depth → depth ≤ document.depth) ∧
      (document.operations ≠ [] → ∃ operation ∈ document.operations,
        document.Descends order operation.selections document.depth)) ∧
    (document.operations ≠ [] → ∃ operation ∈ document.operations,
      document.Expands [] operation.selections document.depth) ∧
    (document.operations = [] → document.depth = 0) ∧
    (document.LoneCycles →
      (∀ operation ∈ document.operations, ∀ depth,
        document.Expands [] operation.selections depth → depth ≤ document.depth) ∧
      ∀ other : Document, document.Matches other → other.Matches document →
        other.depth = document.depth) ∧
    ∀ schema set supplied, (document.audit schema set supplied).depth = document.depth := by
  obtain ⟨order, horder, hdeepest, hattained⟩ := document.exists_finishing
  have hdescends : document.operations ≠ [] → ∃ operation ∈ document.operations,
      document.Descends order operation.selections document.depth := by
    intro hsome
    rcases hattained with hzero | hattained
    · obtain ⟨operation, rest, hoperations⟩ := List.exists_cons_of_ne_nil hsome
      rw [hzero]
      exact ⟨operation, by simp [hoperations], .nothing⟩
    · exact hattained
  refine ⟨⟨order, horder.nodup, horder.mem_iff, horder.cuts, hdeepest, hdescends⟩, ?_, ?_, ?_, ?_⟩
  · intro hsome
    obtain ⟨operation, hoperation, hchain⟩ := hdescends hsome
    exact ⟨operation, hoperation, hchain.expands horder.nodup fun _ _ => List.not_mem_nil⟩
  · intro hnone
    rw [Document.depth, hnone]
    rfl
  · intro hlone
    refine ⟨fun operation hoperation depth => hlone.le_depth hoperation, ?_⟩
    intro other hthere hback
    exact Nat.le_antisymm (hback.depth_le hlone) (hthere.depth_le (hback.loneCycles hlone))
  · exact fun schema set supplied => document.audit_depth schema set supplied

/-- A query with some selections, and two fragments that spread each other: `F` inside one field,
`G` inside two. -/
def crossing (selections : SelectionSet) : Document :=
  let field (name : Name) (inner : SelectionSet) : Selection :=
    .field ⟨none, name, .start, [], []⟩ inner
  ⟨[.operation ⟨.query, none, .start, [], [], selections⟩,
    .fragment ⟨"F", "Query", .start, [], [field "a" [.spread ⟨"G", .start, []⟩]]⟩,
    .fragment ⟨"G", "Query", .start, [],
      [field "b" [field "c" [.spread ⟨"F", .start, []⟩]]]⟩]⟩

theorem crossing_matches {selections shuffled : SelectionSet}
    (h : SelectionSet.Shuffled selections shuffled) :
    (crossing selections).Matches (crossing shuffled) where
  operations := by
    intro operation hoperation
    obtain rfl := List.mem_singleton.mp hoperation
    exact ⟨_, List.mem_singleton_self _, h⟩
  fragments := fun _ fragment hfragment => ⟨fragment, hfragment, .refl _⟩

/-- With `F` first, the depth of `G` is found while `F` is open and kept for its spread inside a
field: the depth is 3. The other way round it is 4, as in the expansion of both. -/
theorem depth_cuts_cycles_crossing :
    ∃ document other : Document, document.Matches other ∧ other.Matches document ∧
      document.depth = 3 ∧ other.depth = 4 ∧
      (∃ operation ∈ document.operations, document.Expands [] operation.selections 4) ∧
      ¬ document.LoneCycles := by
  let first : Selection := .spread ⟨"F", .start, []⟩
  let second : Selection :=
    .field ⟨none, "x", .start, [], []⟩ [.spread ⟨"G", .start, []⟩]
  have hthere : (crossing [first, second]).Matches (crossing [second, first]) :=
    crossing_matches .swap
  have hback : (crossing [second, first]).Matches (crossing [first, second]) :=
    crossing_matches .swap
  have hdepth : (crossing [first, second]).depth = 3 := by decide +kernel
  have hother : (crossing [second, first]).depth = 4 := by decide +kernel
  refine ⟨_, _, hthere, hback, hdepth, hother, ?_, fun hlone => ?_⟩
  · obtain ⟨operation, hoperation, hexpands⟩ :=
      (depth_cuts_cycles (crossing [second, first])).2.1 (List.cons_ne_nil _ _)
    obtain ⟨same, hsame, hshuffled⟩ := hback.operations operation hoperation
    rw [hother] at hexpands
    exact ⟨same, hsame, hback.expands hexpands hshuffled⟩
  · have hsame := ((depth_cuts_cycles (crossing [first, second])).2.2.2.1 hlone).2 _ hthere hback
    rw [hdepth, hother] at hsame
    cases hsame

end QueryAudit
