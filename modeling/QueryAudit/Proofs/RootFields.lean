import QueryAudit.Proofs.Codes
import QueryAudit.Proofs.VariablePositions

/-!
# The root fields of a subscription

The fields at the root of an operation stand in its set, in inline fragments at that level, and in
the fragments spread at that level, however these spread each other. The search for them opens each
name once and goes on with the names opened so far, so that a later sibling finds what an earlier
one has opened. `Collects` is that search without a bound on the fragments opened inside each other.
Whatever it collects is a root field. Conversely, each item of an opened set is accounted for, and
so is each set of a name that was opened; and no place is collected twice, since places in different
definitions differ and a definition is searched for one name only.
-/

namespace QueryAudit

namespace Document

/-- A selection set stands at the root of the operation of a number: its own set, one of an inline
fragment at that level, or one of the first fragment of a name spread at that level. -/
inductive RootSet (document : Document) (number : Nat) : Address → SelectionSet → Prop
  | operation {operation : Operation}
      (hoperation : document.definitions[number]? = some (.operation operation)) :
      RootSet document number [number] operation.selections
  | inline {address : Address} {selections inner : SelectionSet} {index : Nat}
      {head : InlineFragment} (hset : RootSet document number address selections)
      (hitem : selections[index]? = some (.inline head inner)) :
      RootSet document number (index :: address) inner
  | spread {address : Address} {selections : SelectionSet} {index place : Nat} {spread : Spread}
      {fragment : Fragment} (hset : RootSet document number address selections)
      (hitem : selections[index]? = some (.spread spread))
      (hfragment : document.fragment? spread.name = some fragment)
      (hplace : document.fragmentNumber? spread.name = some place) :
      RootSet document number [place] fragment.selections

/-- A field is written at a place at the root of the operation of a number. -/
def RootField (document : Document) (number : Nat) (place : Address) (field : Field) : Prop :=
  ∃ address selections index inner, document.RootSet number address selections ∧
    selections[index]? = some (.field field inner) ∧ place = index :: address

/-! ## The search without a bound -/

/-- The items of a set from a number on are searched for root fields, with some names opened before:
these names are opened after, and these fields are collected with their places. -/
inductive Collects (document : Document) :
    List Name → Address → Nat → List Selection → List Name → List (Address × Field) → Prop
  | done {opened address number} : Collects document opened address number [] opened []
  | field {opened address number field inner rest after others}
      (hrest : Collects document opened address (number + 1) rest after others) :
      Collects document opened address number (.field field inner :: rest) after
        ((number :: address, field) :: others)
  | inline {opened address number head inner rest between after fields others}
      (hinner : Collects document opened (number :: address) 0 inner between fields)
      (hrest : Collects document between address (number + 1) rest after others) :
      Collects document opened address number (.inline head inner :: rest) after (fields ++ others)
  | again {opened address number rest after others} {spread : Spread}
      (hopened : spread.name ∈ opened)
      (hrest : Collects document opened address (number + 1) rest after others) :
      Collects document opened address number (.spread spread :: rest) after others
  | undefined {opened address number rest after others} {spread : Spread}
      (hnew : spread.name ∉ opened) (hfragment : document.fragment? spread.name = none)
      (hrest : Collects document (spread.name :: opened) address (number + 1) rest after others) :
      Collects document opened address number (.spread spread :: rest) after others
  | spread {opened address number rest between after fields others place} {spread : Spread}
      {fragment : Fragment} (hnew : spread.name ∉ opened)
      (hfragment : document.fragment? spread.name = some fragment)
      (hplace : document.fragmentNumber? spread.name = some place)
      (hinner : Collects document (spread.name :: opened) [place] 0 fragment.selections between
        fields)
      (hrest : Collects document between address (number + 1) rest after others) :
      Collects document opened address number (.spread spread :: rest) after (fields ++ others)

theorem Collects.opened_subset {document : Document} {opened after : List Name}
    {address : Address} {number : Nat} {selections : List Selection}
    {collected : List (Address × Field)}
    (h : document.Collects opened address number selections after collected) : opened ⊆ after := by
  induction h with
  | done => exact List.Subset.refl _
  | field _ ih => exact ih
  | inline _ _ ihinner ihrest => exact List.Subset.trans ihinner ihrest
  | again _ _ ih => exact ih
  | undefined _ _ _ ih => exact List.Subset.trans (List.subset_cons_self _ _) ih
  | spread _ _ _ _ _ ihinner ihrest =>
      exact List.Subset.trans (List.Subset.trans (List.subset_cons_self _ _) ihinner) ihrest

/-- The search has one outcome. -/
theorem Collects.unique {document : Document} {opened after later : List Name}
    {address : Address} {number : Nat} {selections : List Selection}
    {collected others : List (Address × Field)}
    (h : document.Collects opened address number selections after collected)
    (hother : document.Collects opened address number selections later others) :
    after = later ∧ collected = others := by
  induction h generalizing later others with
  | done =>
      cases hother
      exact ⟨rfl, rfl⟩
  | field _ ih =>
      cases hother with
      | field hrest =>
          obtain ⟨rfl, rfl⟩ := ih hrest
          exact ⟨rfl, rfl⟩
  | inline _ _ ihinner ihrest =>
      cases hother with
      | inline hinner hrest =>
          obtain ⟨rfl, rfl⟩ := ihinner hinner
          obtain ⟨rfl, rfl⟩ := ihrest hrest
          exact ⟨rfl, rfl⟩
  | again hopened _ ih =>
      cases hother with
      | again _ hrest => exact ih hrest
      | undefined hnew => exact absurd hopened hnew
      | spread hnew => exact absurd hopened hnew
  | undefined hnew hfragment _ ih =>
      cases hother with
      | again hopened => exact absurd hopened hnew
      | undefined _ _ hrest => exact ih hrest
      | spread _ hdefined => cases hfragment.symm.trans hdefined
  | spread hnew hfragment hplace _ _ ihinner ihrest =>
      cases hother with
      | again hopened => exact absurd hopened hnew
      | undefined _ hundefined => cases hfragment.symm.trans hundefined
      | spread _ hdefined hnumber hinner hrest =>
          cases hfragment.symm.trans hdefined
          cases hplace.symm.trans hnumber
          obtain ⟨rfl, rfl⟩ := ihinner hinner
          obtain ⟨rfl, rfl⟩ := ihrest hrest
          exact ⟨rfl, rfl⟩

/-! ## The bound is never felt -/

theorem unseen_mono (document : Document) {seen later : List Name} (h : seen ⊆ later) :
    document.unseen later ≤ document.unseen seen := by
  refine (List.monotone_filter_right _ fun name hname => ?_).length_le
  rw [decide_eq_true_iff] at hname ⊢
  exact fun hseen => hname (h hseen)

theorem unseen_cons_lt {document : Document} {seen : List Name} {spread : Spread}
    {fragment : Fragment} (hnew : spread.name ∉ seen)
    (hfragment : document.fragment? spread.name = some fragment) :
    document.unseen (spread.name :: seen) < document.unseen seen := by
  have hround := document.unseen_discover seen [spread]
  rw [discover_cons_new hnew, hfragment] at hround
  exact hround

/-- A way to open fragments finds what the search finds, while no more than so many names are
unseen. -/
structure Opens (document : Document) (bound : Nat)
    (openFragment : List Name → Name → List Name × List Field) : Prop where
  undefined : ∀ opened name, document.fragment? name = none →
    openFragment opened name = (opened, [])
  spread : ∀ opened (spread : Spread) fragment place, spread.name ∉ opened →
    document.fragment? spread.name = some fragment →
    document.fragmentNumber? spread.name = some place → document.unseen opened ≤ bound →
    ∃ after collected,
      document.Collects (spread.name :: opened) [place] 0 fragment.selections after collected ∧
        openFragment (spread.name :: opened) spread.name = (after, collected.map Prod.snd)

section

variable {document : Document} {bound : Nat}
  {openFragment : List Name → Name → List Name × List Field}

mutual

theorem Opens.exists_rootFieldsOf (h : document.Opens bound openFragment) {opened : List Name}
    (hunseen : document.unseen opened ≤ bound) (address : Address) (number : Nat)
    (selection : Selection) :
    ∃ between fields,
      rootFieldsOf openFragment opened selection = (between, fields.map Prod.snd) ∧
        opened ⊆ between ∧ ∀ rest after others,
          document.Collects between address (number + 1) rest after others →
          document.Collects opened address number (selection :: rest) after (fields ++ others) := by
  cases selection with
  | field chosen inner =>
      exact ⟨opened, [(number :: address, chosen)], rfl, List.Subset.refl _,
        fun _ _ _ hrest => .field hrest⟩
  | inline head inner =>
      obtain ⟨between, fields, hinner, hfields⟩ :=
        h.exists_rootFieldsOfAll hunseen (number :: address) 0 inner
      exact ⟨between, fields, hfields, hinner.opened_subset,
        fun _ _ _ hrest => .inline hinner hrest⟩
  | spread chosen =>
      rw [rootFieldsOf]
      by_cases hopened : chosen.name ∈ opened
      · exact ⟨opened, [], if_pos hopened, List.Subset.refl _,
          fun _ _ _ hrest => .again hopened hrest⟩
      · rw [if_neg hopened]
        cases hfragment : document.fragment? chosen.name with
        | none =>
            exact ⟨chosen.name :: opened, [], h.undefined _ _ hfragment, List.subset_cons_self _ _,
              fun _ _ _ hrest => .undefined hopened hfragment hrest⟩
        | some fragment =>
            obtain ⟨place, hplace, -⟩ := exists_fragmentNumber? hfragment
            obtain ⟨between, fields, hinner, hfields⟩ :=
              h.spread opened chosen fragment place hopened hfragment hplace hunseen
            exact ⟨between, fields, hfields,
              List.Subset.trans (List.subset_cons_self _ _) hinner.opened_subset,
              fun _ _ _ hrest => .spread hopened hfragment hplace hinner hrest⟩

theorem Opens.exists_rootFieldsOfAll (h : document.Opens bound openFragment)
    {opened : List Name} (hunseen : document.unseen opened ≤ bound) (address : Address)
    (number : Nat) (selections : List Selection) :
    ∃ after collected, document.Collects opened address number selections after collected ∧
      rootFieldsOfAll openFragment opened selections = (after, collected.map Prod.snd) := by
  cases selections with
  | nil => exact ⟨opened, [], .done, rfl⟩
  | cons selection rest =>
      obtain ⟨between, fields, hfields, hsubset, hfirst⟩ :=
        h.exists_rootFieldsOf hunseen address number selection
      obtain ⟨after, others, hrest, hothers⟩ := h.exists_rootFieldsOfAll
        (Nat.le_trans (document.unseen_mono hsubset) hunseen) address (number + 1) rest
      refine ⟨after, fields ++ others, hfirst rest after others hrest, ?_⟩
      rw [rootFieldsOfAll, hfields, List.map_append]
      simp only [hothers]

end

end

/-- Fragments opened inside each other have different names, so there is a level for each. -/
theorem opens_rootFieldsOfFragment (document : Document) (depth : Nat) :
    document.Opens depth (document.rootFieldsOfFragment depth) := by
  induction depth with
  | zero =>
      refine ⟨fun _ _ _ => rfl, fun opened spread fragment place hnew hfragment _ hunseen => ?_⟩
      have hless := unseen_cons_lt hnew hfragment
      omega
  | succ depth ih =>
      refine ⟨fun opened name hname => ?_,
        fun opened spread fragment place hnew hfragment _ hunseen => ?_⟩
      · rw [rootFieldsOfFragment, hname]
      · have hless := unseen_cons_lt hnew hfragment
        rw [rootFieldsOfFragment, hfragment]
        exact ih.exists_rootFieldsOfAll (by omega) [place] 0 fragment.selections

/-- The search ends, and its fields are the root fields. -/
theorem exists_collects (document : Document) (address : Address) (selections : SelectionSet) :
    ∃ after collected, document.Collects [] address 0 selections after collected ∧
      document.rootFields selections = collected.map Prod.snd := by
  obtain ⟨after, collected, hcollects, hfields⟩ :=
    (document.opens_rootFieldsOfFragment document.fragments.length).exists_rootFieldsOfAll
      document.unseen_nil_le address 0 selections
  exact ⟨after, collected, hcollects, congrArg Prod.snd hfields⟩

/-! ## Whatever is collected is a root field -/

theorem Collects.rootField {document : Document} {operation : Nat} {opened after : List Name}
    {address : Address} {number : Nat} {rest : List Selection}
    {collected : List (Address × Field)}
    (h : document.Collects opened address number rest after collected) {all : SelectionSet}
    (hset : document.RootSet operation address all) (hrest : all.drop number = rest) :
    ∀ entry ∈ collected, document.RootField operation entry.1 entry.2 := by
  induction h generalizing all with
  | done => simp
  | @field opened address number field inner rest after others _ ih =>
      obtain ⟨hitem, hnext⟩ := item_of_drop hrest
      intro entry hentry
      rcases List.mem_cons.mp hentry with rfl | hentry
      · exact ⟨address, all, number, inner, hset, hitem, rfl⟩
      · exact ih hset hnext entry hentry
  | inline _ _ ihinner ihrest =>
      obtain ⟨hitem, hnext⟩ := item_of_drop hrest
      intro entry hentry
      rcases List.mem_append.mp hentry with hentry | hentry
      · exact ihinner (.inline hset hitem) List.drop_zero entry hentry
      · exact ihrest hset hnext entry hentry
  | again _ _ ih => exact ih hset (item_of_drop hrest).2
  | undefined _ _ _ ih => exact ih hset (item_of_drop hrest).2
  | spread _ hfragment hplace _ _ ihinner ihrest =>
      obtain ⟨hitem, hnext⟩ := item_of_drop hrest
      intro entry hentry
      rcases List.mem_append.mp hentry with hentry | hentry
      · exact ihinner (.spread hset hitem hfragment hplace) List.drop_zero entry hentry
      · exact ihrest hset hnext entry hentry

/-! ## Every root field is collected -/

/-- Of the items of a set from a number on, each field is among some fields and each spread is of
one of some names, and so for inline fragments at that level. -/
inductive Accounted (names : List Name) (fields : List (Address × Field)) :
    Address → Nat → List Selection → Prop
  | done {address number} : Accounted names fields address number []
  | field {address number field inner rest} (hfield : (number :: address, field) ∈ fields)
      (hrest : Accounted names fields address (number + 1) rest) :
      Accounted names fields address number (.field field inner :: rest)
  | spread {address number rest} {spread : Spread} (hname : spread.name ∈ names)
      (hrest : Accounted names fields address (number + 1) rest) :
      Accounted names fields address number (.spread spread :: rest)
  | inline {address number head inner rest}
      (hinner : Accounted names fields (number :: address) 0 inner)
      (hrest : Accounted names fields address (number + 1) rest) :
      Accounted names fields address number (.inline head inner :: rest)

namespace Accounted

variable {names : List Name} {fields : List (Address × Field)} {address : Address} {number : Nat}
  {selections : List Selection}

theorem mono (h : Accounted names fields address number selections) {more : List Name}
    {others : List (Address × Field)} (hnames : names ⊆ more) (hfields : fields ⊆ others) :
    Accounted more others address number selections := by
  induction h with
  | done => exact .done
  | field hfield _ ih => exact .field (hfields hfield) ih
  | spread hname _ ih => exact .spread (hnames hname) ih
  | inline _ _ ihinner ihrest => exact .inline ihinner ihrest

theorem mem_of_field (h : Accounted names fields address number selections) {index : Nat}
    {field : Field} {inner : SelectionSet}
    (hitem : selections[index]? = some (.field field inner)) :
    ((number + index) :: address, field) ∈ fields := by
  induction h generalizing index with
  | done => cases hitem
  | field hfield _ ih =>
      cases index with
      | zero =>
          cases hitem
          exact hfield
      | succ index =>
          rw [← Nat.succ_add_eq_add_succ]
          exact ih hitem
  | spread _ _ ih | inline _ _ _ ih =>
      cases index with
      | zero => cases hitem
      | succ index =>
          rw [← Nat.succ_add_eq_add_succ]
          exact ih hitem

theorem mem_of_spread (h : Accounted names fields address number selections) {spread : Spread}
    (hitem : .spread spread ∈ selections) : spread.name ∈ names := by
  induction h with
  | done => cases hitem
  | field _ _ ih | inline _ _ _ ih => exact ih ((List.mem_cons.mp hitem).resolve_left (by simp))
  | spread hname _ ih =>
      rcases List.mem_cons.mp hitem with heq | hitem
      · cases heq
        exact hname
      · exact ih hitem

theorem of_inline (h : Accounted names fields address number selections) {index : Nat}
    {head : InlineFragment} {inner : SelectionSet}
    (hitem : selections[index]? = some (.inline head inner)) :
    Accounted names fields ((number + index) :: address) 0 inner := by
  induction h generalizing index with
  | done => cases hitem
  | inline hinner _ _ ih =>
      cases index with
      | zero =>
          cases hitem
          exact hinner
      | succ index =>
          rw [← Nat.succ_add_eq_add_succ]
          exact ih hitem
  | spread _ _ ih | field _ _ ih =>
      cases index with
      | zero => cases hitem
      | succ index =>
          rw [← Nat.succ_add_eq_add_succ]
          exact ih hitem

end Accounted

/-- The first fragment of a name, if there is one, is accounted for. -/
def NameAccounted (document : Document) (names : List Name) (fields : List (Address × Field))
    (name : Name) : Prop :=
  ∀ fragment place, document.fragment? name = some fragment →
    document.fragmentNumber? name = some place →
    Accounted names fields [place] 0 fragment.selections

theorem NameAccounted.mono {document : Document} {names more : List Name}
    {fields others : List (Address × Field)} {name : Name}
    (h : document.NameAccounted names fields name) (hnames : names ⊆ more)
    (hfields : fields ⊆ others) : document.NameAccounted more others name :=
  fun fragment place hfragment hplace => (h fragment place hfragment hplace).mono hnames hfields

/-- The items searched are accounted for, and the names opened meanwhile. -/
theorem Collects.accounted {document : Document} {opened after : List Name} {address : Address}
    {number : Nat} {selections : List Selection} {collected : List (Address × Field)}
    (h : document.Collects opened address number selections after collected) :
    Accounted after collected address number selections ∧
      ∀ name ∈ after, name ∈ opened ∨ document.NameAccounted after collected name := by
  induction h with
  | done => exact ⟨.done, fun _ hname => .inl hname⟩
  | @field _ address number field _ _ _ others _ ih =>
      have hsubset := List.subset_cons_self (number :: address, field) others
      refine ⟨.field List.mem_cons_self (ih.1.mono (List.Subset.refl _) hsubset), ?_⟩
      exact fun name hname => (ih.2 name hname).imp_right (·.mono (List.Subset.refl _) hsubset)
  | @inline _ _ _ _ _ _ _ _ fields others _ hrest ihinner ihrest =>
      have hfields := List.subset_append_left fields others
      have hothers := List.subset_append_right fields others
      refine ⟨.inline (ihinner.1.mono hrest.opened_subset hfields)
        (ihrest.1.mono (List.Subset.refl _) hothers), fun name hname => ?_⟩
      rcases ihrest.2 name hname with hbetween | haccounted
      · exact (ihinner.2 name hbetween).imp_right (·.mono hrest.opened_subset hfields)
      · exact .inr (haccounted.mono (List.Subset.refl _) hothers)
  | again hopened hrest ih => exact ⟨.spread (hrest.opened_subset hopened) ih.1, ih.2⟩
  | undefined hnew hfragment hrest ih =>
      refine ⟨.spread (hrest.opened_subset List.mem_cons_self) ih.1, fun name hname => ?_⟩
      rcases ih.2 name hname with hopened | haccounted
      · rcases List.mem_cons.mp hopened with rfl | hopened
        · exact .inr fun fragment _ hdefined => by cases hfragment.symm.trans hdefined
        · exact .inl hopened
      · exact .inr haccounted
  | @spread _ _ _ _ _ _ fields others _ _ _ hnew hfragment hplace hinner hrest ihinner ihrest =>
      have hfields := List.subset_append_left fields others
      have hothers := List.subset_append_right fields others
      have hbelow := hrest.opened_subset
      refine ⟨.spread (hbelow (hinner.opened_subset List.mem_cons_self))
        (ihrest.1.mono (List.Subset.refl _) hothers), fun name hname => ?_⟩
      rcases ihrest.2 name hname with hbetween | haccounted
      · rcases ihinner.2 name hbetween with hopened | haccounted
        · rcases List.mem_cons.mp hopened with rfl | hopened
          · -- the name opened here: what it spreads is searched right now
            refine .inr fun fragment number hdefined hnumber => ?_
            cases hfragment.symm.trans hdefined
            cases hplace.symm.trans hnumber
            exact ihinner.1.mono hbelow hfields
          · exact .inl hopened
        · exact .inr (haccounted.mono hbelow hfields)
      · exact .inr (haccounted.mono (List.Subset.refl _) hothers)

theorem Collects.accounted_of_rootSet {document : Document} {number : Nat}
    {operation : Operation} {after : List Name} {collected : List (Address × Field)}
    (hoperation : document.definitions[number]? = some (.operation operation))
    (h : document.Collects [] [number] 0 operation.selections after collected)
    {address : Address} {selections : SelectionSet}
    (hset : document.RootSet number address selections) :
    Accounted after collected address 0 selections := by
  induction hset with
  | operation hother =>
      cases hoperation.symm.trans hother
      exact h.accounted.1
  | inline _ hitem ih =>
      have hinner := ih.of_inline hitem
      rwa [Nat.zero_add] at hinner
  | spread _ hitem hfragment hplace ih =>
      have hname := ih.mem_of_spread (List.mem_of_getElem? hitem)
      exact (h.accounted.2 _ hname).resolve_left List.not_mem_nil _ _ hfragment hplace

theorem Collects.mem_iff {document : Document} {number : Nat} {operation : Operation}
    {after : List Name} {collected : List (Address × Field)}
    (hoperation : document.definitions[number]? = some (.operation operation))
    (h : document.Collects [] [number] 0 operation.selections after collected)
    (place : Address) (field : Field) :
    (place, field) ∈ collected ↔ document.RootField number place field := by
  constructor
  · exact h.rootField (.operation hoperation) List.drop_zero (place, field)
  · rintro ⟨address, selections, index, inner, hset, hitem, rfl⟩
    have hmem := (h.accounted_of_rootSet hoperation hset).mem_of_field hitem
    rwa [Nat.zero_add] at hmem

/-! ## No place is collected twice -/

/-- Two names with a fragment at one place are the same. -/
theorem eq_of_fragmentNumber? {document : Document} {name other : Name}
    {fragment found : Fragment} {place : Nat} (hfragment : document.fragment? name = some fragment)
    (hplace : document.fragmentNumber? name = some place)
    (hfound : document.fragment? other = some found)
    (hother : document.fragmentNumber? other = some place) : name = other := by
  obtain ⟨_, hnumber, hdefinition⟩ := exists_fragmentNumber? hfragment
  cases hplace.symm.trans hnumber
  obtain ⟨_, hnumber, hsame⟩ := exists_fragmentNumber? hfound
  cases hother.symm.trans hnumber
  cases hdefinition.symm.trans hsame
  exact (name_of_fragment? hfragment).symm.trans (name_of_fragment? hfound)

/-- A place is in the first fragment of a name. The definition comes last in an address. -/
def PlaceIn (document : Document) (name : Name) (place : Address) : Prop :=
  ∃ fragment number, document.fragment? name = some fragment ∧
    document.fragmentNumber? name = some number ∧ place.getLast? = some number

theorem PlaceIn.eq {document : Document} {name other : Name} {place : Address}
    (h : document.PlaceIn name place) (hother : document.PlaceIn other place) : name = other := by
  obtain ⟨fragment, number, hfragment, hnumber, hlast⟩ := h
  obtain ⟨found, same, hfound, hsame, hagain⟩ := hother
  cases hlast.symm.trans hagain
  exact eq_of_fragmentNumber? hfragment hnumber hfound hsame

/-- A place at or below an item of a set is in the same definition as the set. -/
theorem PlaceIn.of_suffix {document : Document} {name : Name} {address place : Address}
    {number : Nat} (h : document.PlaceIn name place) (hne : address ≠ [])
    (hsuffix : number :: address <:+ place) : document.PlaceIn name address := by
  obtain ⟨inside, rfl⟩ := hsuffix
  obtain ⟨fragment, host, hfragment, hhost, hlast⟩ := h
  refine ⟨fragment, host, hfragment, hhost, ?_⟩
  obtain ⟨first, rest, rfl⟩ := List.exists_cons_of_ne_nil hne
  rw [List.getLast?_append_cons, List.getLast?_cons_cons] at hlast
  exact hlast

/-- Where a search from some opened names on may collect a field: at or below an item of a set,
from a number on, or in a fragment opened meanwhile. -/
def Collectable (document : Document) (opened after : List Name) (address : Address)
    (number : Nat) (place : Address) : Prop :=
  (∃ index, number ≤ index ∧ index :: address <:+ place) ∨
    ∃ name ∈ after, name ∉ opened ∧ document.PlaceIn name place

theorem Collectable.mono {document : Document} {opened between after later : List Name}
    {address : Address} {number next : Nat} {place : Address}
    (h : document.Collectable between after address next place) (hbefore : opened ⊆ between)
    (hafter : after ⊆ later) (hnumber : number ≤ next) :
    document.Collectable opened later address number place := by
  refine h.imp ?_ ?_
  · rintro ⟨index, hle, hsuffix⟩
    exact ⟨index, Nat.le_trans hnumber hle, hsuffix⟩
  · rintro ⟨name, hname, hnew, hplace⟩
    exact ⟨name, hafter hname, fun hopened => hnew (hbefore hopened), hplace⟩

/-- What a search from the set of a fragment on may collect is in that fragment or in one opened
meanwhile. -/
theorem Collectable.exists_placeIn {document : Document} {opened after : List Name} {name : Name}
    {fragment : Fragment} {number : Nat} {place : Address} (hnew : name ∉ opened)
    (hopened : name ∈ after) (hfragment : document.fragment? name = some fragment)
    (hnumber : document.fragmentNumber? name = some number)
    (h : document.Collectable (name :: opened) after [number] 0 place) :
    ∃ host ∈ after, host ∉ opened ∧ document.PlaceIn host place := by
  rcases h with ⟨index, -, inside, rfl⟩ | ⟨host, hhost, hunseen, hplace⟩
  · refine ⟨name, hopened, hnew, fragment, number, hfragment, hnumber, ?_⟩
    rw [List.getLast?_append_cons]
    rfl
  · exact ⟨host, hhost, fun hmem => hunseen (List.mem_cons_of_mem _ hmem), hplace⟩

theorem Collects.collectable {document : Document} {opened after : List Name}
    {address : Address} {number : Nat} {selections : List Selection}
    {collected : List (Address × Field)}
    (h : document.Collects opened address number selections after collected) :
    ∀ entry ∈ collected, document.Collectable opened after address number entry.1 := by
  induction h with
  | done => simp
  | @field opened address number _ _ _ _ _ _ ih =>
      intro entry hentry
      rcases List.mem_cons.mp hentry with rfl | hentry
      · exact .inl ⟨number, Nat.le_refl _, List.suffix_refl _⟩
      · exact (ih entry hentry).mono (List.Subset.refl _) (List.Subset.refl _) (Nat.le_succ _)
  | @inline opened address number _ _ _ _ _ _ _ hinner hrest ihinner ihrest =>
      intro entry hentry
      rcases List.mem_append.mp hentry with hentry | hentry
      · rcases ihinner entry hentry with ⟨index, -, hsuffix⟩ | ⟨name, hname, hnew, hplace⟩
        · exact .inl ⟨number, Nat.le_refl _, (List.suffix_cons _ _).trans hsuffix⟩
        · exact .inr ⟨name, hrest.opened_subset hname, hnew, hplace⟩
      · exact (ihrest entry hentry).mono hinner.opened_subset (List.Subset.refl _) (Nat.le_succ _)
  | again _ _ ih =>
      exact fun entry hentry =>
        (ih entry hentry).mono (List.Subset.refl _) (List.Subset.refl _) (Nat.le_succ _)
  | undefined _ _ _ ih =>
      exact fun entry hentry =>
        (ih entry hentry).mono (List.subset_cons_self _ _) (List.Subset.refl _) (Nat.le_succ _)
  | spread hnew hfragment hplace hinner hrest ihinner ihrest =>
      have hname := hinner.opened_subset List.mem_cons_self
      have hbefore := List.Subset.trans (List.subset_cons_self _ _) hinner.opened_subset
      intro entry hentry
      rcases List.mem_append.mp hentry with hentry | hentry
      · obtain ⟨host, hhost, hunseen, hin⟩ :=
          (ihinner entry hentry).exists_placeIn hnew hname hfragment hplace
        exact .inr ⟨host, hrest.opened_subset hhost, hunseen, hin⟩
      · exact (ihrest entry hentry).mono hbefore (List.Subset.refl _) (Nat.le_succ _)

/-- What is collected for one item and for the later ones of a set is at different places, if the
fragment that the set is in was opened before. -/
theorem nodup_item_append {document : Document} {opened between after : List Name}
    {address : Address} {number : Nat} {fields others : List (Address × Field)}
    (hne : address ≠ []) (hhost : ∀ name, document.PlaceIn name address → name ∈ opened)
    (hsubset : opened ⊆ between) (hfields : (fields.map Prod.fst).Nodup)
    (hothers : (others.map Prod.fst).Nodup)
    (hitem : ∀ entry ∈ fields, number :: address <:+ entry.1 ∨
      ∃ name ∈ between, name ∉ opened ∧ document.PlaceIn name entry.1)
    (hlater : ∀ entry ∈ others,
      document.Collectable between after address (number + 1) entry.1) :
    ((fields ++ others).map Prod.fst).Nodup := by
  rw [List.map_append, List.nodup_append]
  refine ⟨hfields, hothers, fun first hfirst second hsecond heq => ?_⟩
  obtain ⟨one, hone, rfl⟩ := List.mem_map.mp hfirst
  obtain ⟨other, hother, rfl⟩ := List.mem_map.mp hsecond
  rcases hitem one hone with hhere | ⟨name, hname, hnew, hplace⟩ <;>
    rcases hlater other hother with ⟨index, hle, hbelow⟩ | ⟨host, hopened, hunseen, hin⟩
  · -- two items of one set
    rw [heq] at hhere
    have hsame : number :: address = index :: address :=
      (List.suffix_of_suffix_length_le hhere hbelow (Nat.le_refl _)).eq_of_length rfl
    have hnumber := (List.cons.inj hsame).1
    omega
  · rw [← heq] at hin
    exact hunseen (hsubset (hhost host (hin.of_suffix hne hhere)))
  · rw [heq] at hplace
    exact hnew (hhost name (hplace.of_suffix hne hbelow))
  · rw [heq] at hplace
    exact hunseen (hplace.eq hin ▸ hname)

theorem Collects.nodup {document : Document} {opened after : List Name} {address : Address}
    {number : Nat} {selections : List Selection} {collected : List (Address × Field)}
    (h : document.Collects opened address number selections after collected) (hne : address ≠ [])
    (hhost : ∀ name, document.PlaceIn name address → name ∈ opened) :
    (collected.map Prod.fst).Nodup := by
  induction h with
  | done => exact List.nodup_nil
  | @field opened address number field _ _ _ others hrest ih =>
      rw [← List.singleton_append]
      refine nodup_item_append hne hhost (List.Subset.refl _) (List.nodup_singleton _)
        (ih hne hhost) ?_ hrest.collectable
      intro entry hentry
      rw [List.mem_singleton.mp hentry]
      exact .inl (List.suffix_refl _)
  | @inline opened address number _ _ _ _ _ _ _ hinner hrest ihinner ihrest =>
      have hinside : ∀ name, document.PlaceIn name (number :: address) → name ∈ opened :=
        fun name hplace => hhost name (hplace.of_suffix hne (List.suffix_refl _))
      refine nodup_item_append hne hhost hinner.opened_subset
        (ihinner (List.cons_ne_nil _ _) hinside)
        (ihrest hne fun name hplace => hinner.opened_subset (hhost name hplace)) ?_
        hrest.collectable
      intro entry hentry
      refine (hinner.collectable entry hentry).imp_left ?_
      rintro ⟨index, -, hsuffix⟩
      exact (List.suffix_cons _ _).trans hsuffix
  | again _ _ ih => exact ih hne hhost
  | undefined _ _ _ ih =>
      exact ih hne fun name hplace => List.mem_cons_of_mem _ (hhost name hplace)
  | spread hnew hfragment hplace hinner hrest ihinner ihrest =>
      have hname := hinner.opened_subset List.mem_cons_self
      have hbefore := List.Subset.trans (List.subset_cons_self _ _) hinner.opened_subset
      have hinside := ihinner (List.cons_ne_nil _ _) fun name hin =>
        (hin.eq ⟨_, _, hfragment, hplace, rfl⟩) ▸ List.mem_cons_self
      exact nodup_item_append hne hhost hbefore hinside
        (ihrest hne fun name hin => hbefore (hhost name hin))
        (fun entry hentry => .inr
          ((hinner.collectable entry hentry).exists_placeIn hnew hname hfragment hplace))
        hrest.collectable

end Document

/-! ## Reports on operations -/

namespace Checker

/-- Root fields of several keys are reported just if two of them have different keys. -/
theorem rootFieldDiagnostics_eq (name : Option Name) (fields : List Field) :
    ∃ several : List Diagnostic,
      rootFieldDiagnostics name fields =
        several ++ ((fields.filter fun field => isReserved field.name).map fun field =>
          ⟨.introspectionRootField name, [field.position]⟩) ∧
      ((∀ a ∈ fields, ∀ b ∈ fields, a.responseKey = b.responseKey) → several = []) ∧
      ∀ a ∈ fields, ∀ b ∈ fields, a.responseKey ≠ b.responseKey →
        ∃ first, fields.head? = some first ∧
          several = [⟨.severalRootFields name,
            (fields.filter fun field => field.responseKey ≠ first.responseKey).map
              Field.position⟩] := by
  cases fields with
  | nil => exact ⟨[], rfl, fun _ => rfl, by simp⟩
  | cons first rest =>
      have hextra : ∀ field : Field, decide (some field.responseKey ≠
          (first :: rest).head?.map Field.responseKey) =
          decide (field.responseKey ≠ first.responseKey) := by
        simp
      refine ⟨_, rfl, fun hsame => if_pos ?_, fun a ha b hb hne => ⟨first, rfl, ?_⟩⟩
      · rw [List.isEmpty_iff, List.filter_eq_nil_iff]
        intro field hfield
        simp [hsame field hfield first List.mem_cons_self]
      · simp only [hextra]
        refine if_neg fun hempty => ?_
        -- of two fields of different keys one has another key than the first
        rw [List.isEmpty_iff, List.filter_eq_nil_iff] at hempty
        have hkey : ∀ field ∈ first :: rest, field.responseKey = first.responseKey :=
          fun field hfield => by simpa using hempty field hfield
        exact hne ((hkey a ha).trans (hkey b hb).symm)

end Checker

namespace Document

def rootReports (document : Document) : Definition → List Diagnostic
  | .operation operation =>
      if operation.kind = .subscription then
        Checker.rootFieldDiagnostics operation.name (document.rootFields operation.selections)
      else []
  | .fragment _ => []

def rootReportsAt (document : Document) (number : Nat) : List Diagnostic :=
  document.definitions[number]?.elim [] document.rootReports

theorem rootReportsAt_of {document : Document} {number : Nat} {definition : Definition}
    (h : document.definitions[number]? = some definition) :
    document.rootReportsAt number = document.rootReports definition := by
  rw [rootReportsAt, h, Option.elim_some]

/-- The rule on root fields looks at each definition once, in document order. -/
theorem reportsOf_singleFieldSubscriptions (schema : Schema) (document : Document)
    (supplied : Variables) :
    document.reportsOf schema .singleFieldSubscriptions supplied =
      document.definitions.flatMap document.rootReports := by
  have hignored : ∀ step, Step.entersOperation step = false →
      ∀ state : Rule.singleFieldSubscriptions.checker.State,
        Rule.singleFieldSubscriptions.checker.step ⟨schema, document, supplied, step.types⟩ state
          step.event = (state, []) := by
    rintro ⟨event, types⟩ hstep state
    cases event with
    | leave node => rfl
    | enter node => cases node <;> first | rfl | cases hstep
  unfold reportsOf
  rw [Checker.reports_filter _ _ _ _ Step.entersOperation hignored,
    document.filter_steps schema Step.exists_of_entersOperation]
  refine (Checker.reports_stateless _ schema document supplied _).trans ?_
  rw [List.flatMap_assoc]
  refine List.flatMap_congr fun definition _ => ?_
  cases definition with
  | operation operation => exact List.append_nil _
  | fragment fragment => rfl

end Document

/-- The root fields of a subscription are collected exactly. The search through spreads and inline
fragments ends, with one outcome, for the operation of any number. It collects each field written at
the root of the operation, in an inline fragment there or in the first fragment of a name spread
there, and no place twice. For a subscription, if two of these fields have different keys, those
whose key is not that of the first are reported together, at their positions; each introspection
field is reported by itself. Nothing is reported at any other definition. -/
theorem subscription_roots_exact (schema : Schema) (document : Document) (supplied : Variables)
    (set : RuleSet) :
    ∃ reports : Nat → List Diagnostic,
      (document.audit schema set supplied).diagnostics.filter
          (·.problem.code = .singleRootField) =
        (if .singleFieldSubscriptions ∈ set.rules then
          (List.range document.definitions.length).flatMap reports
        else []) ∧
      (∀ number, (∀ operation, document.definitions[number]? = some (.operation operation) →
        operation.kind ≠ .subscription) → reports number = []) ∧
      ∀ number operation, document.definitions[number]? = some (.operation operation) →
        (∃ opened collected,
          document.Collects [] [number] 0 operation.selections opened collected ∧
          (∀ later others, document.Collects [] [number] 0 operation.selections later others →
            opened = later ∧ collected = others) ∧
          document.rootFields operation.selections = collected.map Prod.snd ∧
          (collected.map Prod.fst).Nodup ∧
          ∀ place field, (place, field) ∈ collected ↔ document.RootField number place field) ∧
        (operation.kind = .subscription →
          let fields := document.rootFields operation.selections
          ∃ several : List Diagnostic,
            reports number = several ++ ((fields.filter fun field => isReserved field.name).map
              fun field => ⟨.introspectionRootField operation.name, [field.position]⟩) ∧
            ((∀ a ∈ fields, ∀ b ∈ fields, a.responseKey = b.responseKey) → several = []) ∧
            ∀ a ∈ fields, ∀ b ∈ fields, a.responseKey ≠ b.responseKey →
              ∃ first, fields.head? = some first ∧
                several = [⟨.severalRootFields operation.name,
                  (fields.filter fun field => field.responseKey ≠ first.responseKey).map
                    Field.position⟩]) := by
  refine ⟨document.rootReportsAt, ?_, ?_, ?_⟩
  · rw [show Code.singleRootField = Rule.singleFieldSubscriptions.code from rfl,
      document.filter_diagnostics schema set supplied rfl,
      document.reportsOf_singleFieldSubscriptions schema supplied]
    refine if_congr Iff.rfl ?_ rfl
    rw [List.range_eq_range', ← List.zipIdx_map_snd 0 document.definitions, List.flatMap_map]
    conv_lhs => rw [← List.zipIdx_map_fst 0 document.definitions, List.flatMap_map]
    refine List.flatMap_congr fun numbered hnumbered => ?_
    exact (Document.rootReportsAt_of (List.mem_zipIdx_iff_getElem?.mp hnumbered)).symm
  · intro number hother
    cases hdefinition : document.definitions[number]? with
    | none => rw [Document.rootReportsAt, hdefinition, Option.elim_none]
    | some definition =>
        rw [Document.rootReportsAt_of hdefinition]
        cases definition with
        | operation operation => exact if_neg (hother operation hdefinition)
        | fragment fragment => rfl
  · intro number operation hoperation
    refine ⟨?_, fun hkind => ?_⟩
    · obtain ⟨opened, collected, hcollects, hfields⟩ :=
        document.exists_collects [number] operation.selections
      -- the definition of an operation is not searched for a name
      have hhost : ∀ name, document.PlaceIn name [number] → name ∈ [] := by
        rintro name ⟨fragment, place, hfragment, hplace, hlast⟩
        cases Option.some.inj hlast
        obtain ⟨_, hnumber, hdefinition⟩ := Document.exists_fragmentNumber? hfragment
        cases hplace.symm.trans hnumber
        cases hoperation.symm.trans hdefinition
      exact ⟨opened, collected, hcollects, fun _ _ hother => hcollects.unique hother, hfields,
        hcollects.nodup (List.cons_ne_nil _ _) hhost, hcollects.mem_iff hoperation⟩
    · have hreports : document.rootReportsAt number =
          Checker.rootFieldDiagnostics operation.name
            (document.rootFields operation.selections) :=
        (Document.rootReportsAt_of hoperation).trans (if_pos hkind)
      rw [hreports]
      exact Checker.rootFieldDiagnostics_eq operation.name _

end QueryAudit
