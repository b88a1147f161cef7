import QueryAudit.Proofs.Walk
import QueryAudit.Walk

/-!
# What a walk shows at each node

The pieces of a document, down to single values, are set out here by the grammar alone: each piece
with its parts, and each piece known by the way down to it. The walk of a document goes through
these pieces. It enters and leaves each of them once, with the pieces inside in between, and what is
tracked at a piece comes from the pieces around it and from the piece itself. So it is the same
whether the whole document is walked or one definition by itself.
-/

namespace QueryAudit

/-! ## Pieces of a document -/

/-- A piece of a document. Selection sets come with their address, parts of a value with the place
of the whole value. -/
inductive Piece where
  | document (document : Document)
  | operation (number : Nat) (operation : Operation)
  | fragment (number : Nat) (fragment : Fragment)
  | variableDefinition (definition : VariableDefinition)
  | directive (directive : Directive)
  | argument (argument : Argument)
  | selectionSet (address : Address) (selections : SelectionSet)
  | selection (address : Address) (selection : Selection)
  | field (address : Address) (field : Field) (selections : SelectionSet)
  | spread (spread : Spread)
  | inline (address : Address) (fragment : InlineFragment) (selections : SelectionSet)
  | value (position : Position) (value : Literal)
  | listItem (position : Position) (value : Literal)
  | objectField (position : Position) (name : Name) (value : Literal)
  | variableUse (position : Position) (name : Name)

def Definition.piece (number : Nat) : Definition → Piece
  | .operation o => .operation number o
  | .fragment f => .fragment number f

/-- An item of a selection set as a piece; its own set has the given address. -/
def Selection.piece (address : Address) : Selection → Piece
  | .field chosen inner => .field address chosen inner
  | .spread chosen => .spread chosen
  | .inline head inner => .inline address head inner

namespace Piece

def node : Piece → Node
  | .document _ => .document
  | .operation _ o => .operation o
  | .fragment _ f => .fragment f
  | .variableDefinition d => .variableDefinition d
  | .directive d => .directive d
  | .argument a => .argument a
  | .selectionSet address selections => .selectionSet address selections
  | .selection _ chosen => .selection chosen
  | .field _ chosen inner => .field chosen inner
  | .spread chosen => .spread chosen
  | .inline _ head _ => .inline head
  | .value position literal => .value position literal
  | .listItem position item => .listItem position item
  | .objectField position name literal => .objectField position name literal
  | .variableUse position name => .variableUse position name

def ofValue (position : Position) : Literal → List Piece
  | .var name => [.variableUse position name]
  | .list items => items.map (.listItem position)
  | .object fields => fields.map fun field => .objectField position field.1 field.2
  | _ => []

/-- The pieces right inside a piece, in order. Default values of variables are none. -/
def parts : Piece → List Piece
  | .document it => it.definitions.zipIdx.map fun numbered => numbered.1.piece numbered.2
  | .operation number o =>
      o.variableDefinitions.map .variableDefinition ++ o.directives.map .directive ++
        [.selectionSet [number] o.selections]
  | .fragment number f => f.directives.map .directive ++ [.selectionSet [number] f.selections]
  | .variableDefinition d => d.directives.map .directive
  | .directive d => d.arguments.map .argument
  | .argument a => [.value a.valuePosition a.value]
  | .selectionSet address selections =>
      selections.zipIdx.map fun numbered => .selection (numbered.2 :: address) numbered.1
  | .selection address chosen => [chosen.piece address]
  | .field address chosen inner =>
      chosen.arguments.map .argument ++ chosen.directives.map .directive ++
        [.selectionSet address inner]
  | .spread chosen => chosen.directives.map .directive
  | .inline address head inner => head.directives.map .directive ++ [.selectionSet address inner]
  | .value position literal => ofValue position literal
  | .listItem position item => [.value position item]
  | .objectField position _ literal => [.value position literal]
  | .variableUse _ _ => []

end Piece

/-- The way down to a piece: which part to take, again and again. -/
abbrev Way := List Nat

/-- The piece at the end of a way. -/
def Piece.at? (piece : Piece) : Way → Option Piece
  | [] => some piece
  | number :: rest => piece.parts[number]?.bind fun part => part.at? rest

theorem item_of_drop {α : Type} {all rest : List α} {item : α} {number : Nat}
    (h : all.drop number = item :: rest) :
    all[number]? = some item ∧ all.drop (number + 1) = rest := by
  constructor
  · rw [← List.head?_drop, h, List.head?_cons]
  · rw [← List.tail_drop, h, List.tail_cons]

/-! ## Walks through pieces -/

/-- What is tracked inside of nodes, outermost first, if nothing else is walked. -/
def tracked (schema : Schema) (nodes : List Node) : Tracker :=
  nodes.foldl (Tracker.enter schema) Tracker.empty

theorem tracked_concat (schema : Schema) (nodes : List Node) (node : Node) :
    tracked schema (nodes ++ [node]) = (tracked schema nodes).enter schema node := by
  simp [tracked, List.foldl_append]

/-- A walk goes through pieces one after the other. They are the parts of the piece at a way, from a
number on, and stand inside of some nodes. Each is entered, then its parts are walked, then it is
left; at both events what is tracked is that of the nodes around it and of its own node. -/
inductive Walks (schema : Schema) :
    List Node → Way → Nat → List Piece → List (Way × Step) → Prop
  | done {around way number} : Walks schema around way number [] []
  | next {around way number piece rest inside others}
      (hinside : Walks schema (around ++ [piece.node]) (way ++ [number]) 0 piece.parts inside)
      (hothers : Walks schema around way (number + 1) rest others) :
      Walks schema around way number (piece :: rest)
        ((way ++ [number], ⟨.enter piece.node, tracked schema (around ++ [piece.node])⟩) ::
          (inside ++
            (way ++ [number], ⟨.leave piece.node, tracked schema (around ++ [piece.node])⟩) ::
              others))

/-- A walk through a whole document, each step with the way to its piece. -/
def Document.IsWalk (schema : Schema) (document : Document) (walk : List (Way × Step)) : Prop :=
  ∃ inside, Walks schema [.document] [] 0 (Piece.document document).parts inside ∧
    walk = ([], ⟨.enter .document, tracked schema [.document]⟩) ::
      (inside ++ [([], ⟨.leave .document, tracked schema [.document]⟩)])

def Event.isEnter : Event → Bool
  | .enter _ => true
  | .leave _ => false

/-- How often a walk enters, or else leaves, the piece at the end of a way. -/
def visits (entering : Bool) (way : Way) (walk : List (Way × Step)) : Nat :=
  walk.countP fun entry => entry.1 = way && entry.2.event.isEnter = entering

theorem visits_append (entering : Bool) (way : Way) (first second : List (Way × Step)) :
    visits entering way (first ++ second) =
      visits entering way first + visits entering way second :=
  List.countP_append

theorem visits_eq_zero {way : Way} {walk : List (Way × Step)} (h : ∀ entry ∈ walk, entry.1 ≠ way)
    (entering : Bool) : visits entering way walk = 0 := by
  refine List.countP_eq_zero.mpr fun entry hentry => ?_
  simp [h entry hentry]

/-- Around what is inside of it, a piece is entered once and left once. -/
theorem visits_around (entering : Bool) (way place : Way) (node : Node) (types : Tracker)
    (inside others : List (Way × Step)) :
    visits entering way
        ((place, ⟨.enter node, types⟩) :: (inside ++ (place, ⟨.leave node, types⟩) :: others)) =
      (if place = way then 1 else 0) + visits entering way inside +
        visits entering way others := by
  have henter : visits entering way [(place, ⟨.enter node, types⟩)] +
      visits entering way [(place, ⟨.leave node, types⟩)] = if place = way then 1 else 0 := by
    by_cases hplace : place = way <;> cases entering <;>
      simp [visits, hplace, Event.isEnter]
  have hsplit : visits entering way
      ([(place, ⟨.enter node, types⟩)] ++ (inside ++ ([(place, ⟨.leave node, types⟩)] ++ others))) =
      visits entering way [(place, ⟨.enter node, types⟩)] + (visits entering way inside +
        (visits entering way [(place, ⟨.leave node, types⟩)] + visits entering way others)) := by
    simp only [visits_append]
  simp only [List.cons_append, List.nil_append] at hsplit
  rw [hsplit, ← henter]
  omega

namespace Walks

variable {schema : Schema} {around : List Node} {way : Way} {number : Nat} {pieces : List Piece}
  {walk : List (Way × Step)}

/-- A walk through parts of a piece stays below that piece. -/
theorem exists_way (h : Walks schema around way number pieces walk) :
    ∀ entry ∈ walk, ∃ index rest, entry.1 = way ++ index :: rest ∧ number ≤ index := by
  induction h with
  | done => exact fun _ hentry => absurd hentry List.not_mem_nil
  | @next around way number piece rest inside others _ _ ihinside ihothers =>
      intro entry hentry
      rw [List.mem_cons, List.mem_append, List.mem_cons] at hentry
      rcases hentry with rfl | hinside | rfl | hothers
      · exact ⟨number, [], rfl, Nat.le_refl _⟩
      · obtain ⟨index, below, hway, -⟩ := ihinside entry hinside
        refine ⟨number, index :: below, ?_, Nat.le_refl _⟩
        rw [hway, List.append_assoc, List.singleton_append]
      · exact ⟨number, [], rfl, Nat.le_refl _⟩
      · obtain ⟨index, below, hway, hle⟩ := ihothers entry hothers
        exact ⟨index, below, hway, by omega⟩

/-- Each piece below the numbered ones is entered once and left once. -/
theorem visits_eq (h : Walks schema around way number pieces walk) (entering : Bool)
    (index : Nat) (rest : Way) :
    visits entering (way ++ index :: rest) walk =
      if number ≤ index ∧ (pieces[index - number]?.bind fun piece => piece.at? rest).isSome
        then 1 else 0 := by
  induction h generalizing index rest with
  | done => simp [visits]
  | @next around way number piece pieces inside others hinside hothers ihinside ihothers =>
      rw [visits_around]
      by_cases hindex : index = number
      · subst hindex
        have hlater : visits entering (way ++ index :: rest) others = 0 := by
          refine visits_eq_zero (fun entry hentry heq => ?_) entering
          obtain ⟨other, below, hway, hle⟩ := hothers.exists_way entry hentry
          have hsame := List.append_cancel_left (hway.symm.trans heq)
          have hnumber := (List.cons.inj hsame).1
          omega
        cases rest with
        | nil =>
            have hbelow : visits entering (way ++ [index]) inside = 0 := by
              refine visits_eq_zero (fun entry hentry heq => ?_) entering
              obtain ⟨other, below, hway, -⟩ := hinside.exists_way entry hentry
              have hlength := congrArg List.length (hway.symm.trans heq)
              simp at hlength
            rw [hbelow, hlater]
            simp [Piece.at?]
        | cons first rest =>
            have hway : way ++ index :: first :: rest = (way ++ [index]) ++ first :: rest := by
              rw [List.append_assoc, List.singleton_append]
            rw [hlater, hway, ihinside first rest]
            simp [Piece.at?]
      · have hbelow : visits entering (way ++ index :: rest) inside = 0 := by
          refine visits_eq_zero (fun entry hentry heq => ?_) entering
          obtain ⟨other, below, hway, -⟩ := hinside.exists_way entry hentry
          rw [List.append_assoc, List.singleton_append] at hway
          have hsame := List.append_cancel_left (hway.symm.trans heq)
          exact hindex (List.cons.inj hsame).1.symm
        have hhere : way ++ [number] ≠ way ++ index :: rest := by
          intro heq
          exact hindex (List.cons.inj (List.append_cancel_left heq)).1.symm
        rw [hbelow, if_neg hhere, ihothers index rest]
        by_cases hle : number + 1 ≤ index
        · have hsucc : index - number = (index - (number + 1)) + 1 := by omega
          have hnumber : number ≤ index := by omega
          simp [hle, hnumber, hsucc]
        · have hnumber : ¬ number ≤ index := by omega
          simp [hle, hnumber]

end Walks

/-- A walk through a document enters and leaves each of its pieces once. -/
theorem Document.IsWalk.visits_eq {schema : Schema} {document : Document}
    {walk : List (Way × Step)} (h : document.IsWalk schema walk) (entering : Bool) (way : Way) :
    visits entering way walk =
      if ((Piece.document document).at? way).isSome then 1 else 0 := by
  obtain ⟨inside, hinside, rfl⟩ := h
  rw [visits_around]
  cases way with
  | nil =>
      have hbelow : visits entering [] inside = 0 := by
        refine visits_eq_zero (fun entry hentry heq => ?_) entering
        obtain ⟨index, rest, hway, -⟩ := hinside.exists_way entry hentry
        cases hway.symm.trans heq
      rw [hbelow]
      simp [visits, Piece.at?]
  | cons index rest =>
      have hbelow := hinside.visits_eq entering index rest
      rw [List.nil_append] at hbelow
      rw [hbelow]
      by_cases hsome : (((Piece.document document).parts[index]?).bind
          fun part => part.at? rest).isSome
      · simp [visits, Piece.at?, hsome]
      · simp [visits, Piece.at?, hsome]

/-! ## The walk of a document -/

/-- The trees that a walk is taken through are those of pieces. -/
inductive Shows : List Piece → List NodeTree → Prop
  | none : Shows [] []
  | next (piece : Piece) {rest children trees} (hparts : Shows piece.parts children)
      (hrest : Shows rest trees) : Shows (piece :: rest) (.node piece.node children :: trees)

namespace Shows

theorem one (piece : Piece) {children : List NodeTree} (h : Shows piece.parts children) :
    Shows [piece] [.node piece.node children] :=
  .next piece h .none

theorem append {first second : List Piece} {trees others : List NodeTree}
    (hfirst : Shows first trees) (hsecond : Shows second others) :
    Shows (first ++ second) (trees ++ others) := by
  induction hfirst with
  | none => exact hsecond
  | next piece hparts _ _ ih => exact .next piece hparts ih

theorem map {α : Type} {piece : α → Piece} {tree : α → NodeTree}
    (h : ∀ item, Shows [piece item] [tree item]) (items : List α) :
    Shows (items.map piece) (items.map tree) := by
  induction items with
  | nil => exact .none
  | cons item rest ih => exact (h item).append ih

/-- A walk through the trees of pieces is a walk through the pieces. -/
theorem exists_walk {pieces : List Piece} {trees : List NodeTree} (h : Shows pieces trees)
    (schema : Schema) (around : List Node) (way : Way) (number : Nat) :
    ∃ walk, Walks schema around way number pieces walk ∧
      walk.map Prod.snd = NodeTree.forestStepsBelow schema (tracked schema around) trees := by
  induction h generalizing around way number with
  | none => exact ⟨[], .done, rfl⟩
  | next piece _ _ ihparts ihrest =>
      obtain ⟨inside, hinside, hsteps⟩ := ihparts (around ++ [piece.node]) (way ++ [number]) 0
      obtain ⟨others, hothers, hlater⟩ := ihrest around way (number + 1)
      have htracked : tracked schema (around ++ [piece.node]) =
          (tracked schema around).enter schema piece.node := by
        simp only [tracked, List.foldl_append, List.foldl_cons, List.foldl_nil]
      refine ⟨_, .next hinside hothers, ?_⟩
      simp only [List.map_cons, List.map_append, hsteps, hlater, NodeTree.forestStepsBelow,
        NodeTree.stepsBelow, htracked, List.cons_append, List.append_assoc, List.nil_append]

end Shows

mutual

theorem Value.tree_shows (position : Position) (value : Literal) :
    Shows [.value position value] [Value.tree position value] := by
  cases value with
  | var name =>
      exact Shows.one (.value position (.var name)) (Shows.one (.variableUse position name) .none)
  | list items =>
      exact Shows.one (.value position (.list items)) (Value.itemTrees_show position items)
  | object fields =>
      exact Shows.one (.value position (.object fields)) (Value.fieldTrees_show position fields)
  | null => exact Shows.one (.value position .null) .none
  | number n => exact Shows.one (.value position (.number n)) .none
  | string s => exact Shows.one (.value position (.string s)) .none
  | boolean b => exact Shows.one (.value position (.boolean b)) .none
  | enum e => exact Shows.one (.value position (.enum e)) .none

theorem Value.itemTrees_show (position : Position) (items : List Literal) :
    Shows (items.map (.listItem position)) (Value.itemTrees position items) := by
  cases items with
  | nil => exact .none
  | cons item rest =>
      exact .next (.listItem position item) (Value.tree_shows position item)
        (Value.itemTrees_show position rest)

theorem Value.fieldTrees_show (position : Position) (fields : List (Name × Literal)) :
    Shows (fields.map fun field => .objectField position field.1 field.2)
      (Value.fieldTrees position fields) := by
  cases fields with
  | nil => exact .none
  | cons head rest =>
      obtain ⟨name, value⟩ := head
      exact .next (.objectField position name value) (Value.tree_shows position value)
        (Value.fieldTrees_show position rest)

end

theorem Argument.pieces_show (arguments : List Argument) :
    Shows (arguments.map .argument) (arguments.map Argument.tree) :=
  Shows.map (fun argument => Shows.one (.argument argument)
    (Value.tree_shows argument.valuePosition argument.value)) arguments

theorem Directive.pieces_show (directives : List Directive) :
    Shows (directives.map .directive) (directives.map Directive.tree) :=
  Shows.map (fun directive => Shows.one (.directive directive)
    (Argument.pieces_show directive.arguments)) directives

theorem VariableDefinition.pieces_show (definitions : List VariableDefinition) :
    Shows (definitions.map .variableDefinition) (definitions.map VariableDefinition.tree) :=
  Shows.map (fun definition => Shows.one (.variableDefinition definition)
    (Directive.pieces_show definition.directives)) definitions

mutual

theorem Selection.piece_shows (address : Address) (selection : Selection) :
    Shows [.selection address selection] [Selection.tree address selection] := by
  cases selection with
  | field chosen inner =>
      have hset : Shows [.selectionSet address inner] [SelectionSet.tree address inner] :=
        Shows.one _ (Selection.pieces_show address 0 inner)
      exact Shows.one (.selection address (.field chosen inner))
        (Shows.one (.field address chosen inner)
          (((Argument.pieces_show _).append (Directive.pieces_show _)).append hset))
  | spread chosen =>
      exact Shows.one (.selection address (.spread chosen))
        (Shows.one (.spread chosen) (Directive.pieces_show _))
  | inline head inner =>
      have hset : Shows [.selectionSet address inner] [SelectionSet.tree address inner] :=
        Shows.one _ (Selection.pieces_show address 0 inner)
      exact Shows.one (.selection address (.inline head inner))
        (Shows.one (.inline address head inner) ((Directive.pieces_show _).append hset))

theorem Selection.pieces_show (address : Address) (number : Nat) (selections : List Selection) :
    Shows ((selections.zipIdx number).map fun numbered =>
        .selection (numbered.2 :: address) numbered.1)
      (Selection.trees address number selections) := by
  cases selections with
  | nil => exact .none
  | cons selection rest =>
      exact (Selection.piece_shows (number :: address) selection).append
        (Selection.pieces_show address (number + 1) rest)

end

theorem Definition.piece_shows (number : Nat) (definition : Definition) :
    Shows [definition.piece number] [Definition.tree number definition] := by
  cases definition with
  | operation o =>
      have hset : Shows [.selectionSet [number] o.selections]
          [SelectionSet.tree [number] o.selections] :=
        Shows.one _ (Selection.pieces_show [number] 0 o.selections)
      exact Shows.one (.operation number o)
        (((VariableDefinition.pieces_show _).append (Directive.pieces_show _)).append hset)
  | fragment f =>
      have hset : Shows [.selectionSet [number] f.selections]
          [SelectionSet.tree [number] f.selections] :=
        Shows.one _ (Selection.pieces_show [number] 0 f.selections)
      exact Shows.one (.fragment number f) ((Directive.pieces_show _).append hset)

theorem Document.pieces_show (document : Document) :
    Shows (Piece.document document).parts (document.definitions.mapIdx Definition.tree) := by
  rw [List.mapIdx_eq_zipIdx_map]
  exact Shows.map (fun numbered => Definition.piece_shows numbered.2 numbered.1)
    document.definitions.zipIdx

/-- The walk of a document goes through its pieces. -/
theorem Document.exists_isWalk (schema : Schema) (document : Document) :
    ∃ walk, document.IsWalk schema walk ∧ walk.map Prod.snd = document.tree.steps schema := by
  obtain ⟨inside, hinside, hsteps⟩ := document.pieces_show.exists_walk schema [.document] [] 0
  refine ⟨_, ⟨inside, hinside, rfl⟩, ?_⟩
  rw [Document.steps_eq_stepsBelow, List.map_cons, List.map_append, hsteps]
  rfl

namespace Walks

variable {schema : Schema} {around : List Node} {way : Way} {number : Nat} {pieces : List Piece}
  {walk : List (Way × Step)}

/-- What is tracked at an event is that of some nodes and, inside of these, of its own node. -/
theorem exists_around (h : Walks schema around way number pieces walk) :
    ∀ entry ∈ walk, ∃ outer, entry.2.types = tracked schema (outer ++ [entry.2.event.node]) := by
  induction h with
  | done => exact fun _ hentry => absurd hentry List.not_mem_nil
  | @next around _ _ _ _ _ _ _ _ ihinside ihothers =>
      intro entry hentry
      rw [List.mem_cons, List.mem_append, List.mem_cons] at hentry
      rcases hentry with rfl | hinside | rfl | hothers
      · exact ⟨around, rfl⟩
      · exact ihinside entry hinside
      · exact ⟨around, rfl⟩
      · exact ihothers entry hothers

/-- There is one walk through given pieces. -/
theorem unique {other : List (Way × Step)} (h : Walks schema around way number pieces walk)
    (hother : Walks schema around way number pieces other) : walk = other := by
  induction h generalizing other with
  | done =>
      cases hother
      rfl
  | next _ _ ihinside ihothers =>
      cases hother with
      | next hinside hothers => rw [ihinside hinside, ihothers hothers]

/-- The steps that a walk takes in one of some pieces are a walk through that one. -/
theorem filter_head (h : Walks schema around way number pieces walk) (hway : way = [])
    {index : Nat} {piece : Piece} (hle : number ≤ index)
    (hpiece : pieces[index - number]? = some piece) :
    Walks schema around [] index [piece]
      (walk.filter fun entry => entry.1.head? = some index) := by
  induction h with
  | done => cases hpiece
  | @next around way number first rest inside others hinside hothers _ ihothers =>
      subst hway
      have hbelow : ∀ entry ∈ inside, entry.1.head? = some number := by
        intro entry hentry
        obtain ⟨other, below, heq, -⟩ := hinside.exists_way entry hentry
        rw [heq]
        rfl
      rw [List.nil_append, List.filter_cons, List.filter_append, List.filter_cons]
      by_cases hindex : number = index
      · subst hindex
        rw [Nat.sub_self] at hpiece
        cases hpiece
        have hkept : (inside.filter fun entry => entry.1.head? = some number) = inside :=
          List.filter_eq_self.mpr fun entry hentry => decide_eq_true (hbelow entry hentry)
        have hdropped : (others.filter fun entry => entry.1.head? = some number) = [] := by
          refine List.filter_eq_nil_iff.mpr fun entry hentry hhead => ?_
          obtain ⟨other, below, heq, hlater⟩ := hothers.exists_way entry hentry
          rw [heq, decide_eq_true_eq] at hhead
          have hsame : other = number := Option.some.inj hhead
          omega
        simp only [List.head?_cons, decide_true, if_true, hkept, hdropped]
        exact .next hinside .done
      · have hdropped : (inside.filter fun entry => entry.1.head? = some index) = [] := by
          refine List.filter_eq_nil_iff.mpr fun entry hentry => ?_
          simp [hbelow entry hentry, hindex]
        have hsucc : index - number = (index - (number + 1)) + 1 := by omega
        rw [hsucc, List.getElem?_cons_succ] at hpiece
        have hrest := ihothers rfl (by omega) hpiece
        simpa [hindex, hdropped] using hrest

end Walks

theorem Document.exists_around {schema : Schema} {document : Document} {step : Step}
    (h : step ∈ document.tree.steps schema) :
    ∃ outer, step.types = (tracked schema outer).enter schema step.event.node := by
  obtain ⟨walk, ⟨inside, hinside, rfl⟩, hsteps⟩ := document.exists_isWalk schema
  rw [← hsteps] at h
  obtain ⟨entry, hentry, rfl⟩ := List.mem_map.mp h
  rw [List.mem_cons, List.mem_append, List.mem_singleton] at hentry
  rcases hentry with rfl | hentry | rfl
  · exact ⟨[], tracked_concat schema [] .document⟩
  · obtain ⟨outer, houter⟩ := hinside.exists_around entry hentry
    exact ⟨outer, houter.trans (tracked_concat schema outer entry.2.event.node)⟩
  · exact ⟨[], tracked_concat schema [] .document⟩

/-! ## Uses of variables -/

namespace VariableUse

def below (schema : Schema) (tracker : Tracker) (tree : NodeTree) : List VariableUse :=
  (tree.stepsBelow schema tracker).filterMap ofStep?

theorem below_node {here : Node} (hhere : ∀ position name, here ≠ .variableUse position name)
    (schema : Schema) (tracker : Tracker) (children : List NodeTree) :
    below schema tracker (.node here children) =
      children.flatMap (below schema (tracker.enter schema here)) := by
  have henter : ∀ types, ofStep? ⟨.enter here, types⟩ = none := by
    intro types
    cases here with
    | variableUse position name => exact absurd rfl (hhere position name)
    | _ => rfl
  have hleave : ∀ types, ofStep? ⟨.leave here, types⟩ = none := fun _ => rfl
  simp only [below, NodeTree.stepsBelow, List.filterMap_cons, List.filterMap_append, henter, hleave,
    List.filterMap_nil, List.append_nil, NodeTree.forestStepsBelow_eq_flatMap,
    List.filterMap_flatMap]
  rfl

/-- The uses in a set are those in its items. -/
theorem below_selectionSet (schema : Schema) (tracker : Tracker) (address : Address)
    (selections : SelectionSet) (children : List NodeTree) :
    below schema tracker (.node (.selectionSet address selections) children) =
      children.flatMap (below schema (tracker.enter schema (.selectionSet [] selections))) :=
  below_node (by simp) schema tracker children

mutual

/-- The uses in a selection do not depend on its address. -/
theorem below_selection_address (schema : Schema) (tracker : Tracker) (address other : Address)
    (selection : Selection) :
    below schema tracker (Selection.tree address selection) =
      below schema tracker (Selection.tree other selection) := by
  cases selection with
  | field chosen inner =>
      have hinner := below_selections_address schema
        ((tracker.enter schema (.field chosen inner)).enter schema (.selectionSet [] inner))
        address other 0 0 inner
      simp only [Selection.tree, below_node (show ∀ position name,
          Node.selection (.field chosen inner) ≠ .variableUse position name by simp),
        below_node (show ∀ position name, Node.field chosen inner ≠ .variableUse position name
          by simp), List.flatMap_cons, List.flatMap_nil, List.flatMap_append, below_selectionSet]
      exact congrArg (fun uses => (_ ++ (uses ++ [])) ++ []) hinner
  | spread chosen => rfl
  | inline head inner =>
      have hinner := below_selections_address schema
        ((tracker.enter schema (.inline head)).enter schema (.selectionSet [] inner))
        address other 0 0 inner
      simp only [Selection.tree, below_node (show ∀ position name,
          Node.selection (.inline head inner) ≠ .variableUse position name by simp),
        below_node (show ∀ position name, Node.inline head ≠ .variableUse position name
          by simp), List.flatMap_cons, List.flatMap_nil, List.flatMap_append, below_selectionSet]
      exact congrArg (fun uses => (_ ++ (uses ++ [])) ++ []) hinner

theorem below_selections_address (schema : Schema) (tracker : Tracker) (address other : Address)
    (number otherNumber : Nat) (selections : List Selection) :
    (Selection.trees address number selections).flatMap (below schema tracker) =
      (Selection.trees other otherNumber selections).flatMap (below schema tracker) := by
  cases selections with
  | nil => rfl
  | cons selection rest =>
      simp only [Selection.trees, List.flatMap_cons]
      rw [below_selection_address schema tracker (number :: address) (otherNumber :: other)
          selection,
        below_selections_address schema tracker address other (number + 1) (otherNumber + 1) rest]

end

/-- The uses in a definition do not depend on its number. -/
theorem inTree_definition (schema : Schema) (number other : Nat) (definition : Definition) :
    inTree schema (Definition.tree number definition) =
      inTree schema (Definition.tree other definition) := by
  have hset : ∀ (tracker : Tracker) (selections : SelectionSet),
      below schema tracker (SelectionSet.tree [number] selections) =
        below schema tracker (SelectionSet.tree [other] selections) := by
    intro tracker selections
    simp only [SelectionSet.tree, below_selectionSet]
    exact below_selections_address schema _ [number] [other] 0 0 selections
  have hbelow : ∀ number, inTree schema (Definition.tree number definition) =
      below schema Tracker.empty (Definition.tree number definition) := by
    intro number
    rw [inTree, Definition.steps_eq, below]
  rw [hbelow, hbelow]
  cases definition with
  | operation o =>
      simp only [Definition.tree, below_node (show ∀ position name,
        Node.operation o ≠ .variableUse position name by simp), List.flatMap_append,
        List.flatMap_cons, hset]
  | fragment f =>
      simp only [Definition.tree, below_node (show ∀ position name,
        Node.fragment f ≠ .variableUse position name by simp), List.flatMap_append,
        List.flatMap_cons, hset]

end VariableUse

/-- The uses that a walk of a document shows in one of its definitions are those found by walking
that definition by itself. -/
theorem Document.IsWalk.uses_eq {schema : Schema} {document : Document}
    {walk : List (Way × Step)} (h : document.IsWalk schema walk) {number : Nat}
    {definition : Definition} (hdefinition : document.definitions[number]? = some definition) :
    (walk.filter fun entry => entry.1.head? = some number).filterMap
        (fun entry => VariableUse.ofStep? entry.2) =
      VariableUse.inTree schema (Definition.tree 0 definition) := by
  obtain ⟨inside, hinside, rfl⟩ := h
  have hpiece : (Piece.document document).parts[number - 0]? =
      some (definition.piece number) := by
    simp [Piece.parts, hdefinition]
  have hblock := hinside.filter_head rfl (Nat.zero_le number) hpiece
  obtain ⟨alone, halone, hsteps⟩ :=
    (Definition.piece_shows number definition).exists_walk schema [.document] [] number
  have hsame : (inside.filter fun entry => entry.1.head? = some number) = alone :=
    hblock.unique halone
  have huses : alone.filterMap (fun entry => VariableUse.ofStep? entry.2) =
      (alone.map Prod.snd).filterMap VariableUse.ofStep? := by
    rw [List.filterMap_map]
    rfl
  rw [List.filter_cons_of_neg (by simp), List.filter_append, List.filter_cons_of_neg (by simp),
    List.filter_nil, List.append_nil, hsame, huses, hsteps,
    VariableUse.inTree_definition schema 0 number, VariableUse.inTree, Definition.steps_eq]
  simp only [NodeTree.forestStepsBelow, List.append_nil]
  rfl

/-! ## What is tracked in the end -/

mutual

theorem NodeTree.Restores.foldl_after {schema : Schema} {tracker : Tracker} (tree : NodeTree)
    (h : NodeTree.Restores schema tracker tree) :
    tree.events.foldl (Tracker.after schema) tracker = tracker := by
  cases tree with
  | node here children =>
      obtain ⟨hleave, hchildren⟩ := h
      have hinside := NodeTree.ForestRestores.foldl_after children hchildren
      simp only [NodeTree.events, List.foldl_cons, List.foldl_append, List.foldl_nil,
        Tracker.after, hinside, hleave]

theorem NodeTree.ForestRestores.foldl_after {schema : Schema} {tracker : Tracker}
    (trees : List NodeTree) (h : NodeTree.ForestRestores schema tracker trees) :
    (NodeTree.forestEvents trees).foldl (Tracker.after schema) tracker = tracker := by
  cases trees with
  | nil => rfl
  | cons tree rest =>
      obtain ⟨htree, hrest⟩ := h
      rw [NodeTree.forestEvents, List.foldl_append, NodeTree.Restores.foldl_after tree htree,
        NodeTree.ForestRestores.foldl_after rest hrest]

end

/-- The walk of a document goes through its pieces: each is entered once and left once, with its
parts walked in between, and at both events what is tracked is that of the pieces around it and of
its own. In the end nothing is tracked. So the uses of variables found in one definition by itself
are those that the walk of the document shows there, with the same expected types and defaults. -/
theorem walk_tracks_exactly (schema : Schema) (document : Document) :
    (∃ walk, walk.map Prod.snd = document.tree.steps schema ∧
      document.IsWalk schema walk ∧
      (∀ entering way, visits entering way walk =
        if ((Piece.document document).at? way).isSome then 1 else 0) ∧
      ∀ number definition, document.definitions[number]? = some definition →
        (walk.filter fun entry => entry.1.head? = some number).filterMap
            (fun entry => VariableUse.ofStep? entry.2) =
          VariableUse.inTree schema (Definition.tree 0 definition)) ∧
    document.tree.events.foldl (Tracker.after schema) Tracker.empty =
      ⟨[], [], [], [], [], none, none⟩ := by
  obtain ⟨walk, hwalk, hsteps⟩ := document.exists_isWalk schema
  refine ⟨⟨walk, hsteps, hwalk, hwalk.visits_eq, ?_⟩, ?_⟩
  · intro number definition hdefinition
    exact hwalk.uses_eq hdefinition
  · exact (document.tree_restores schema).foldl_after

end QueryAudit
