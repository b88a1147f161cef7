import QueryAudit.Grammar.TypeSystem

/-!
# What reading does to the cursor

A relation between cursors that holds across what is ignored, across strings, across plain
characters and around parentheses holds from where any reader of schema texts starts to where it
ends. So what is to be said about all of them is said about these few steps.
-/

namespace QueryAudit.Grammar

/-- Whether a character is none that opens or closes something longer than itself. -/
def isPlain (c : Char) : Bool := c != '(' && c != ')' && c != '"' && c != '#'

/-- A relation that every step of reading keeps to. -/
class Passage (R : Cursor → Cursor → Prop) : Prop where
  refl : ∀ cursor, R cursor cursor
  trans : ∀ {first second third}, R first second → R second third → R first third
  blame : ∀ cursor fault, R cursor { cursor with fault }
  ignored : ∀ cursor taken rest, splitIgnored false cursor.rest = (taken, rest) →
    R cursor (cursor.move taken rest)
  plain : ∀ cursor taken rest, cursor.rest = taken ++ rest → (∀ c ∈ taken, isPlain c = true) →
    R cursor (cursor.move taken rest)
  string : ∀ cursor content taken rest, cursor.rest = taken ++ rest →
    stringScan cursor.rest = some (content, rest) → R cursor (cursor.move taken rest)
  parens : ∀ cursor inside last rest, cursor.rest = '(' :: inside →
    R (cursor.move ['('] inside) last → last.rest = ')' :: rest → R cursor (last.move [')'] rest)

/-! ## Results -/

namespace Reader

variable {α β : Type}

theorem bind_eq_some {reader : Reader α} {next : α → Reader β} {cursor last : Cursor}
    {result : β} :
    (reader >>= next) cursor = some (result, last) ↔
      ∃ first middle, reader cursor = some (first, middle) ∧
        next first middle = some (result, last) := by
  show (reader cursor).bind _ = _ ↔ _
  simp [Option.bind_eq_some_iff]

theorem seqRight_eq_some {first : Reader α} {second : Reader β} {cursor last : Cursor}
    {result : β} :
    (first *> second) cursor = some (result, last) ↔
      ∃ ignored middle, first cursor = some (ignored, middle) ∧
        second middle = some (result, last) :=
  bind_eq_some

theorem orElse_eq_some {first second : Reader α} {cursor last : Cursor} {result : α} :
    (first <|> second) cursor = some (result, last) ↔
      first cursor = some (result, last) ∨
        (first cursor = none ∧ second cursor = some (result, last)) := by
  show (first cursor <|> second cursor) = _ ↔ _
  cases first cursor <;> simp

theorem pure_eq_some {cursor last : Cursor} {result found : α} :
    (pure result : Reader α) cursor = some (found, last) ↔ found = result ∧ last = cursor := by
  show some (result, cursor) = some (found, last) ↔ _
  simp [eq_comm]

theorem map_eq_some {reader : Reader α} {change : α → β} {cursor last : Cursor} {result : β} :
    (change <$> reader) cursor = some (result, last) ↔
      ∃ found, reader cursor = some (found, last) ∧ change found = result := by
  show (reader cursor).bind _ = _ ↔ _
  simp [Option.bind_eq_some_iff]

/-- What is read of a whole text is read from its start. -/
theorem onText_eq_ok {reader : Reader α} {text : String} {result : α}
    (h : reader.onText text = .ok result) :
    ∃ last, reader (Cursor.ofChars text.toList) = some (result, last) := by
  unfold onText at h
  cases hrun : (reader <* finish) (Cursor.ofChars text.toList) with
  | none => simp [hrun] at h
  | some pair =>
      obtain ⟨found, stop⟩ := pair
      simp only [hrun] at h
      split at h
      · cases h
      · cases h
        obtain ⟨found, last, hfound, hfinish⟩ := bind_eq_some.mp hrun
        obtain ⟨_, _, -, hpure⟩ := bind_eq_some.mp hfinish
        obtain ⟨rfl, -⟩ := pure_eq_some.mp hpure
        exact ⟨last, hfound⟩

/-! ## Combinations -/

/-- A relation holds from where a reader starts to where it ends. -/
def Leads (R : Cursor → Cursor → Prop) (reader : Reader α) : Prop :=
  ∀ cursor result last, reader cursor = some (result, last) → R cursor last

namespace Leads

variable {R : Cursor → Cursor → Prop} [Passage R] {reader : Reader α}

theorem pure (result : α) : Leads R (Pure.pure result : Reader α) := by
  intro cursor found last hread
  obtain ⟨-, rfl⟩ := pure_eq_some.mp hread
  exact Passage.refl last

omit [Passage R] in
theorem failure : Leads R (failure : Reader α) := by
  intro cursor result last hread
  cases hread

theorem bind {next : α → Reader β} (h : Leads R reader) (hnext : ∀ result, Leads R (next result)) :
    Leads R (reader >>= next) := by
  intro cursor result last hread
  obtain ⟨first, middle, hfirst, hrest⟩ := bind_eq_some.mp hread
  exact Passage.trans (h _ _ _ hfirst) (hnext _ _ _ _ hrest)

theorem seqRight {second : Reader β} (h : Leads R reader) (hsecond : Leads R second) :
    Leads R (reader *> second) :=
  h.bind fun _ => hsecond

theorem seqLeft {second : Reader β} (h : Leads R reader) (hsecond : Leads R second) :
    Leads R (reader <* second) :=
  h.bind fun result => hsecond.bind fun _ => .pure result

omit [Passage R] in
theorem map (h : Leads R reader) (change : α → β) : Leads R (change <$> reader) := by
  intro cursor result last hread
  obtain ⟨found, hfound, -⟩ := map_eq_some.mp hread
  exact h _ _ _ hfound

omit [Passage R] in
theorem orElse {other : Reader α} (h : Leads R reader) (hother : Leads R other) :
    Leads R (reader <|> other) := by
  intro cursor result last hread
  rcases orElse_eq_some.mp hread with hfirst | ⟨-, hsecond⟩
  · exact h _ _ _ hfirst
  · exact hother _ _ _ hsecond

theorem maybe (h : Leads R reader) : Leads R (maybe reader) := (h.map some).orElse (.pure none)

theorem notAhead (reader : Reader α) : Leads R (notAhead reader) := by
  intro cursor result last hread
  unfold Reader.notAhead at hread
  split at hread
  · cases hread
  · cases hread
    exact Passage.refl cursor

theorem atMost (h : Leads R reader) (bound : Nat) : Leads R (atMost reader bound) := by
  induction bound with
  | zero => exact .pure []
  | succ bound ih =>
      exact (h.bind fun first => ih.bind fun others => .pure (first :: others)).orElse (.pure [])

theorem zeroOrMore (h : Leads R reader) : Leads R (zeroOrMore reader) :=
  fun cursor => h.atMost cursor.rest.length cursor

theorem oneOrMore (h : Leads R reader) : Leads R (oneOrMore reader) :=
  h.bind fun first => h.zeroOrMore.bind fun others => .pure (first :: others)

theorem listOrNone {reader : Reader (List α)} (h : Leads R reader) : Leads R (listOrNone reader) :=
  h.orElse (.pure [])

theorem skip : Leads R skip := by
  intro cursor result last hread
  cases hread
  exact Passage.ignored cursor _ _ rfl

theorem token (h : Leads R reader) : Leads R (token reader) := skip.seqRight h

end Leads

end Reader

/-! ## Tokens -/

theorem dropWord_eq_some {word chars rest : List Char} (h : dropWord word chars = some rest) :
    chars = word ++ rest := by
  fun_induction dropWord word chars with
  | case1 chars => exact Option.some.inj h
  | case2 => cases h
  | case3 c word rest ih => simp [ih h]
  | case4 => cases h

theorem stringBody_suffix {chars content rest : List Char}
    (h : stringBody chars = some (content, rest)) :
    ∃ taken, taken ≠ [] ∧ chars = taken ++ rest := by
  fun_induction stringBody chars generalizing content rest with
  | case1 => cases h
  | case2 rest =>
      cases h
      exact ⟨['"'], by simp, rfl⟩
  | case3 => cases h
  | case4 => cases h
  | case5 a b c d chars code hcode hvalid ih =>
      obtain ⟨⟨inner, left⟩, hinner, heq⟩ := Option.map_eq_some_iff.mp h
      cases heq
      obtain ⟨taken, -, rfl⟩ := ih hinner
      exact ⟨'\\' :: 'u' :: a :: b :: c :: d :: taken, by simp, rfl⟩
  | case6 => cases h
  | case7 e chars hlong c hescape ih =>
      obtain ⟨⟨inner, left⟩, hinner, heq⟩ := Option.map_eq_some_iff.mp h
      cases heq
      obtain ⟨taken, -, rfl⟩ := ih hinner
      exact ⟨'\\' :: e :: taken, by simp, rfl⟩
  | case8 => cases h
  | case9 c chars _ _ _ hplain ih =>
      obtain ⟨⟨inner, left⟩, hinner, heq⟩ := Option.map_eq_some_iff.mp h
      cases heq
      obtain ⟨taken, -, rfl⟩ := ih hinner
      exact ⟨c :: taken, by simp, rfl⟩

theorem blockBody_suffix {chars content rest : List Char}
    (h : blockBody chars = some (content, rest)) : ∃ taken, chars = taken ++ rest := by
  fun_induction blockBody chars generalizing content rest with
  | case1 => cases h
  | case2 rest =>
      cases h
      exact ⟨['"', '"', '"'], rfl⟩
  | case3 chars ih =>
      obtain ⟨⟨inner, left⟩, hinner, heq⟩ := Option.map_eq_some_iff.mp h
      cases heq
      obtain ⟨taken, rfl⟩ := ih hinner
      exact ⟨'\\' :: '"' :: '"' :: '"' :: taken, rfl⟩
  | case4 c chars _ _ ih =>
      obtain ⟨⟨inner, left⟩, hinner, heq⟩ := Option.map_eq_some_iff.mp h
      cases heq
      obtain ⟨taken, rfl⟩ := ih hinner
      exact ⟨c :: taken, rfl⟩

/-- A string takes something off the front. -/
theorem stringScan_suffix {chars rest : List Char} {content : String}
    (h : stringScan chars = some (content, rest)) :
    ∃ taken, taken ≠ [] ∧ chars = taken ++ rest := by
  unfold stringScan at h
  split at h
  · rename_i inner
    split at h
    · rename_i raw left hbody
      cases h
      obtain ⟨taken, rfl⟩ := blockBody_suffix hbody
      exact ⟨'"' :: '"' :: '"' :: taken, by simp, rfl⟩
    · cases h
      exact ⟨['"', '"'], by simp, rfl⟩
  · rename_i inner _
    obtain ⟨⟨body, left⟩, hbody, heq⟩ := Option.map_eq_some_iff.mp h
    cases heq
    obtain ⟨taken, -, rfl⟩ := stringBody_suffix hbody
    exact ⟨'"' :: taken, by simp, rfl⟩
  · cases h

namespace Reader

variable {α β : Type} {R : Cursor → Cursor → Prop} [Passage R]

theorem here_leads : Leads R here := by
  refine Leads.token fun cursor result last hread => ?_
  cases hread
  exact Passage.refl cursor

theorem word_leads {text : String} (h : text.toList.all isPlain = true) : Leads R (word text) := by
  intro cursor result last hread
  obtain ⟨rest, hrest, heq⟩ := Option.map_eq_some_iff.mp hread
  cases heq
  exact Passage.plain cursor _ _ (dropWord_eq_some hrest) (List.all_eq_true.mp h)

theorem mark_leads {text : String} (h : text.toList.all isPlain = true) : Leads R (mark text) :=
  (word_leads h).token

theorem run_leads {accepts : Char → Bool} (h : ∀ c, accepts c = true → isPlain c = true) :
    Leads R (run accepts) := by
  intro cursor result last hread
  cases hread
  refine Passage.plain cursor _ _ List.takeWhile_append_dropWhile.symm fun c hc => h c ?_
  exact List.all_eq_true.mp List.all_takeWhile c hc

theorem one_leads {accepts : Char → Bool} (h : ∀ c, accepts c = true → isPlain c = true) :
    Leads R (one accepts) := by
  intro cursor result last hread
  unfold one at hread
  split at hread
  · rename_i c rest hrest
    split at hread
    · rename_i haccepts
      cases hread
      refine Passage.plain cursor [result] rest hrest fun other hother => ?_
      obtain rfl := List.mem_singleton.mp hother
      exact h other haccepts
    · cases hread
  · cases hread

theorem string_leads : Leads R string := by
  refine Leads.token fun cursor result last hread => ?_
  obtain ⟨⟨content, rest⟩, hscan, heq⟩ := Option.map_eq_some_iff.mp hread
  cases heq
  obtain ⟨taken, -, htaken⟩ := stringScan_suffix hscan
  have hlength : cursor.rest.take (cursor.rest.length - rest.length) = taken := by
    rw [htaken]
    simp
  rw [hlength]
  exact Passage.string cursor result taken rest htaken hscan

/-- A mark stands at the front, once what is ignored is taken off. -/
theorem mark_eq_some {text : String} {cursor last : Cursor} {result : Unit}
    (h : mark text cursor = some (result, last)) :
    ∃ middle rest, skip cursor = some ((), middle) ∧ middle.rest = text.toList ++ rest ∧
      last = middle.move text.toList rest := by
  obtain ⟨_, middle, hskip, hword⟩ := seqRight_eq_some.mp h
  obtain ⟨rest, hrest, heq⟩ := Option.map_eq_some_iff.mp hword
  cases heq
  exact ⟨middle, rest, hskip, dropWord_eq_some hrest, rfl⟩

/-- Something in parentheses. -/
theorem parens_leads {reader : Reader α} (h : Leads R reader) :
    Leads R (mark "(" *> reader <* mark ")") := by
  intro cursor result last hread
  obtain ⟨found, middle, hfirst, hclose⟩ := bind_eq_some.mp hread
  obtain ⟨_, opened, hopen, hinside⟩ := seqRight_eq_some.mp hfirst
  obtain ⟨_, closed, hmark, hpure⟩ := bind_eq_some.mp hclose
  obtain ⟨-, rfl⟩ := pure_eq_some.mp hpure
  obtain ⟨start, inside, hstart, hstartRest, rfl⟩ := mark_eq_some hopen
  obtain ⟨stop, rest, hstop, hstopRest, rfl⟩ := mark_eq_some hmark
  apply Passage.trans (Leads.skip _ _ _ hstart)
  apply Passage.parens start inside stop rest hstartRest ?_ hstopRest
  exact Passage.trans (h _ _ _ hinside) (Leads.skip _ _ _ hstop)

theorem plain_of_isNameChar {c : Char} (h : isNameChar c = true) : isPlain c = true := by
  have hother : ∀ mark, isNameChar mark = false → c ≠ mark := by
    rintro mark hmark rfl
    rw [h] at hmark
    cases hmark
  simp [isPlain, hother '(' rfl, hother ')' rfl, hother '"' rfl, hother '#' rfl]

theorem isNameChar_of_isNameStart {c : Char} (h : isNameStart c = true) : isNameChar c = true := by
  simp [isNameChar, h]

theorem isNameChar_of_isDigit {c : Char} (h : isDigit c = true) : isNameChar c = true := by
  simp [isNameChar, h]

theorem nameStart_leads : Leads R nameStart :=
  one_leads fun _ h => plain_of_isNameChar (isNameChar_of_isNameStart h)

theorem rawName_leads : Leads R rawName :=
  nameStart_leads.bind fun _ => (run_leads fun _ h => plain_of_isNameChar h).bind fun _ => .pure _

theorem name_leads : Leads R name := rawName_leads.token

theorem digits_leads : Leads R digits :=
  (one_leads fun _ h => plain_of_isNameChar (isNameChar_of_isDigit h)).bind fun _ =>
    (run_leads fun _ h => plain_of_isNameChar (isNameChar_of_isDigit h)).bind fun _ => .pure _

theorem exponent_leads : Leads R exponent :=
  ((word_leads rfl).orElse (word_leads rfl)).bind fun _ =>
    (((word_leads rfl).seqRight (.pure _)).orElse
      (((word_leads rfl).seqRight (.pure _)).orElse (.pure _))).bind fun _ =>
      digits_leads.bind fun _ => .pure _

theorem numeral_leads : Leads R numeral :=
  (((word_leads rfl).seqRight (.pure _)).orElse (.pure _)).bind fun _ =>
    (((word_leads rfl).seqRight (.pure _)).orElse digits_leads).bind fun _ =>
      (((word_leads rfl).seqRight digits_leads).orElse (.pure _)).bind fun _ =>
        exponent_leads.maybe.bind fun _ => (Leads.notAhead _).bind fun _ => .pure _

theorem blame_leads (error : ReadError) : Leads R (blame error) := by
  intro cursor result last hread
  cases hread
  exact Passage.blame cursor _

theorem number_leads : Leads R number := by
  refine Leads.token (numeral_leads.bind fun numeral => ?_)
  split
  · exact .pure _
  · exact (blame_leads _).bind fun _ => .pure _

theorem boolean_leads : Leads R boolean :=
  ((mark_leads rfl).seqRight (.pure _)).orElse ((mark_leads rfl).seqRight (.pure _))

theorem enumName_leads : Leads R enumName :=
  ((Leads.notAhead _).seqRight (Leads.notAhead _)).seqRight name_leads

theorem rawTypeRef_leads (depth : Nat) : Leads R (rawTypeRef depth) := by
  induction depth with
  | zero => exact .failure
  | succ depth ih =>
      have hcore : Leads R ((TypeRef.named <$> rawName) <|>
          (TypeRef.list <$> (word "[" *> rawTypeRef depth <* word "]"))) :=
        (rawName_leads.map _).orElse
          ((((word_leads rfl).seqRight ih).seqLeft (word_leads rfl)).map _)
      exact hcore.bind fun _ =>
        (((word_leads rfl).seqRight (.pure _)).orElse (.pure _)).bind fun _ => .pure _

theorem typeRef_leads : Leads R typeRef :=
  Leads.token fun cursor => rawTypeRef_leads (cursor.rest.length + 1) cursor

/-! ## Values and directives -/

theorem valueUpTo_leads {ν : Type} {variableReader : Reader (Value ν)}
    (h : Leads R variableReader) (depth : Nat) : Leads R (valueUpTo variableReader depth) := by
  induction depth with
  | zero => exact .failure
  | succ depth ih =>
      have hfield : Leads R (objectField (valueUpTo variableReader depth)) :=
        name_leads.bind fun _ => (mark_leads rfl).bind fun _ => ih.bind fun _ => .pure _
      have hlist : Leads R (mark "[" *> zeroOrMore (valueUpTo variableReader depth) <* mark "]") :=
        ((mark_leads rfl).seqRight ih.zeroOrMore).seqLeft (mark_leads rfl)
      have hobject : Leads R (mark "\x7b" *>
          zeroOrMore (objectField (valueUpTo variableReader depth)) <* mark "\x7d") :=
        ((mark_leads rfl).seqRight hfield.zeroOrMore).seqLeft (mark_leads rfl)
      exact h.orElse ((number_leads.map _).orElse ((string_leads.map _).orElse
        ((boolean_leads.map _).orElse (((mark_leads rfl).seqRight (.pure _)).orElse
          ((enumName_leads.map _).orElse ((hlist.map _).orElse (hobject.map _)))))))

theorem constant_leads : Leads R constant := fun cursor =>
  valueUpTo_leads .failure (cursor.rest.length + 1) cursor

theorem defaultValue_leads : Leads R defaultValue :=
  Leads.maybe ((mark_leads rfl).bind fun _ => here_leads.bind fun _ =>
    constant_leads.bind fun _ => .pure _)

theorem constantDirective_leads : Leads R constantDirective := by
  have hargument : Leads R constantArgument :=
    name_leads.bind fun _ => (mark_leads rfl).bind fun _ => constant_leads.bind fun _ => .pure _
  exact (mark_leads rfl).bind fun _ => name_leads.bind fun _ =>
    (parens_leads hargument.oneOrMore).listOrNone.bind fun _ => .pure _

/-! ## Declarations -/

theorem inputValue_leads : Leads R inputValue :=
  string_leads.maybe.bind fun _ => name_leads.bind fun _ => (mark_leads rfl).bind fun _ =>
    typeRef_leads.bind fun _ => defaultValue_leads.bind fun _ =>
      constantDirective_leads.zeroOrMore.bind fun _ => .pure _

theorem argumentsDefinition_leads : Leads R argumentsDefinition :=
  (parens_leads inputValue_leads.oneOrMore).map _

/-- Something in braces. -/
theorem braces_leads {reader : Reader α} (h : Leads R reader) :
    Leads R (mark "\x7b" *> reader <* mark "\x7d") :=
  ((mark_leads rfl).seqRight h).seqLeft (mark_leads rfl)

theorem fieldsDefinition_leads : Leads R fieldsDefinition := by
  have hfield : Leads R fieldDefinition :=
    string_leads.maybe.bind fun _ => name_leads.bind fun _ =>
      argumentsDefinition_leads.listOrNone.bind fun _ => (mark_leads rfl).bind fun _ =>
        typeRef_leads.bind fun _ => constantDirective_leads.zeroOrMore.bind fun _ => .pure _
  exact (braces_leads hfield.oneOrMore).map _

theorem enumValues_leads : Leads R enumValues := by
  have hvalue : Leads R enumValue :=
    string_leads.maybe.bind fun _ => enumName_leads.bind fun _ =>
      constantDirective_leads.zeroOrMore.bind fun _ => .pure _
  exact (braces_leads hvalue.oneOrMore).map _

theorem inputFieldsDefinition_leads : Leads R inputFieldsDefinition :=
  (braces_leads inputValue_leads.oneOrMore).map _

theorem separated_leads {separator : String} (hseparator : separator.toList.all isPlain = true)
    {item : Reader α} (h : Leads R item) : Leads R (separated separator item) :=
  (mark_leads hseparator).maybe.bind fun _ => h.bind fun _ =>
    ((mark_leads hseparator).seqRight h).zeroOrMore.bind fun _ => .pure _

theorem implementsInterfaces_leads : Leads R implementsInterfaces :=
  ((mark_leads rfl).seqRight (separated_leads rfl name_leads)).map _

theorem unionMembers_leads : Leads R unionMembers :=
  ((mark_leads rfl).seqRight (separated_leads rfl name_leads)).map _

theorem membersOrDirectives_leads {members : Reader (List α)} (h : Leads R members) :
    Leads R (membersOrDirectives members) :=
  (constantDirective_leads.zeroOrMore.seqRight h).orElse
    (constantDirective_leads.oneOrMore.seqRight (.pure _))

theorem typeForms_leads {keyword : String} (hkeyword : keyword.toList.all isPlain = true)
    {kind : TypeKind} {body extensionBody : TypeDefinition → Reader TypeDefinition}
    (hbody : ∀ type, Leads R (body type)) (hextension : ∀ type, Leads R (extensionBody type)) :
    Leads R (typeForms keyword kind body extensionBody) :=
  Leads.orElse
    (string_leads.maybe.bind fun _ => (mark_leads hkeyword).bind fun _ => name_leads.bind fun _ =>
      (hbody _).bind fun _ => .pure _)
    ((mark_leads rfl).bind fun _ => (mark_leads hkeyword).bind fun _ => name_leads.bind fun _ =>
      (hextension _).bind fun _ => .pure _)

theorem fieldedBody_leads (type : TypeDefinition) : Leads R (fieldedBody type) :=
  implementsInterfaces_leads.listOrNone.bind fun _ => constantDirective_leads.zeroOrMore.bind
    fun _ => fieldsDefinition_leads.listOrNone.bind fun _ => .pure _

theorem fieldedExtension_leads (type : TypeDefinition) : Leads R (fieldedExtension type) :=
  implementsInterfaces_leads.listOrNone.bind fun _ =>
    (membersOrDirectives_leads fieldsDefinition_leads).bind fun _ => .pure _

theorem schemaDefinition_leads : Leads R schemaDefinition := by
  have hkind : Leads R operationKind :=
    ((mark_leads rfl).seqRight (.pure _)).orElse (((mark_leads rfl).seqRight (.pure _)).orElse
      ((mark_leads rfl).seqRight (.pure _)))
  have hroot : Leads R rootType :=
    here_leads.bind fun _ => hkind.bind fun _ => (mark_leads rfl).bind fun _ =>
      name_leads.bind fun _ => .pure _
  have hcollect : ∀ position given roots, Leads R (collectRoots position given roots) := by
    intro position given roots
    induction roots generalizing given with
    | nil => exact .pure given
    | cons root rest ih =>
        obtain ⟨kind, name, place⟩ := root
        rw [collectRoots]
        split
        · exact (blame_leads _).bind fun _ => ih _
        · exact ih _
  have hroots : ∀ position, Leads R (rootTypes position) := fun position =>
    (braces_leads hroot.oneOrMore).bind fun _ => hcollect position _ _
  refine here_leads.bind fun position => Leads.orElse ?_ ?_
  · refine (mark_leads rfl).bind fun _ => constantDirective_leads.zeroOrMore.bind fun _ =>
      (hroots position).bind fun roots => ?_
    split
    · exact (blame_leads _).bind fun _ => .pure _
    · exact .pure _
  · refine (mark_leads rfl).bind fun _ => (mark_leads rfl).bind fun _ =>
      Leads.bind ?_ fun _ => .pure _
    exact (constantDirective_leads.zeroOrMore.seqRight (hroots position)).orElse
      (constantDirective_leads.oneOrMore.seqRight (.pure _))

theorem directiveLocation_leads : Leads R directiveLocation := by
  have hlocation : ∀ location, Leads R (locationKeyword location) := by
    intro location
    have hplain : location.keyword.toList.all isPlain = true := by cases location <;> rfl
    exact (mark_leads hplain).seqRight (.pure _)
  unfold directiveLocation
  repeat' apply Leads.orElse
  all_goals exact hlocation _

theorem directiveDefinition_leads : Leads R directiveDefinition :=
  here_leads.bind fun _ => string_leads.maybe.bind fun _ => (mark_leads rfl).bind fun _ =>
    (mark_leads rfl).bind fun _ => name_leads.bind fun _ =>
      argumentsDefinition_leads.listOrNone.bind fun _ =>
        (((mark_leads rfl).seqRight (.pure _)).orElse (.pure _)).bind fun _ =>
          (mark_leads rfl).bind fun _ =>
            (separated_leads rfl directiveLocation_leads).bind fun _ => .pure _

/-- Whatever relation the steps of reading keep to, reading a declaration does. -/
theorem declaration_leads : Leads R declaration := by
  refine schemaDefinition_leads.orElse (Leads.orElse ?scalar (Leads.orElse ?object (Leads.orElse
    ?interface (Leads.orElse ?union (Leads.orElse ?enum (Leads.orElse ?input
      directiveDefinition_leads))))))
  case scalar =>
    exact typeForms_leads rfl (fun _ => constantDirective_leads.zeroOrMore.bind fun _ => .pure _)
      fun _ => constantDirective_leads.oneOrMore.bind fun _ => .pure _
  case object =>
    exact typeForms_leads rfl fieldedBody_leads fun type => (fieldedExtension_leads type).orElse
      (implementsInterfaces_leads.bind fun _ => .pure _)
  case interface => exact typeForms_leads rfl fieldedBody_leads fieldedExtension_leads
  case union =>
    exact typeForms_leads rfl
      (fun _ => constantDirective_leads.zeroOrMore.bind fun _ =>
        unionMembers_leads.listOrNone.bind fun _ => .pure _)
      fun _ => (membersOrDirectives_leads unionMembers_leads).bind fun _ => .pure _
  case enum =>
    exact typeForms_leads rfl
      (fun _ => constantDirective_leads.zeroOrMore.bind fun _ =>
        enumValues_leads.listOrNone.bind fun _ => .pure _)
      fun _ => (membersOrDirectives_leads enumValues_leads).bind fun _ => .pure _
  case input =>
    exact typeForms_leads rfl
      (fun _ => constantDirective_leads.zeroOrMore.bind fun _ =>
        inputFieldsDefinition_leads.listOrNone.bind fun _ => .pure _)
      fun _ => (membersOrDirectives_leads inputFieldsDefinition_leads).bind fun _ => .pure _

/-! ## Where items are read -/

theorem mem_atMost {reader : Reader α} (h : Leads R reader) {bound : Nat} {cursor last : Cursor}
    {results : List α} (hread : atMost reader bound cursor = some (results, last)) {result : α}
    (hmem : result ∈ results) :
    ∃ start stop, R cursor start ∧ reader start = some (result, stop) := by
  induction bound generalizing cursor last results with
  | zero =>
      obtain ⟨rfl, -⟩ := pure_eq_some.mp hread
      cases hmem
  | succ bound ih =>
      rcases orElse_eq_some.mp hread with hmore | ⟨-, hnone⟩
      · obtain ⟨first, middle, hfirst, hrest⟩ := bind_eq_some.mp hmore
        obtain ⟨others, stop, hothers, hpure⟩ := bind_eq_some.mp hrest
        obtain ⟨rfl, -⟩ := pure_eq_some.mp hpure
        rcases List.mem_cons.mp hmem with rfl | hmem
        · exact ⟨cursor, middle, Passage.refl cursor, hfirst⟩
        · obtain ⟨start, stop, hstart, hstop⟩ := ih hothers hmem
          exact ⟨start, stop, Passage.trans (h _ _ _ hfirst) hstart, hstop⟩
      · obtain ⟨rfl, -⟩ := pure_eq_some.mp hnone
        cases hmem

/-- Each item of a text was read at a cursor to which reading leads from the start. -/
theorem mem_oneOrMore_onText {reader : Reader α} (h : Leads R reader) {text : String}
    {results : List α} (hread : (oneOrMore reader).onText text = .ok results) {result : α}
    (hmem : result ∈ results) :
    ∃ start stop, R (Cursor.ofChars text.toList) start ∧ reader start = some (result, stop) := by
  obtain ⟨last, hitems⟩ := onText_eq_ok hread
  obtain ⟨first, second, hfirst, hrest⟩ := bind_eq_some.mp hitems
  obtain ⟨others, third, hothers, hcons⟩ := bind_eq_some.mp hrest
  obtain ⟨rfl, -⟩ := pure_eq_some.mp hcons
  rcases List.mem_cons.mp hmem with rfl | hmem
  · exact ⟨_, second, Passage.refl _, hfirst⟩
  · obtain ⟨start, stop, hstart, hstop⟩ := mem_atMost h hothers hmem
    exact ⟨start, stop, Passage.trans (h _ _ _ hfirst) hstart, hstop⟩

end Reader

/-! ## Counting -/

theorem byteCount_append (first second : List Char) :
    byteCount (first ++ second) = byteCount first + byteCount second := by
  have hfrom : ∀ (chars : List Char) (start : Nat),
      chars.foldl (fun n c => n + c.utf8Size) start = start + byteCount chars := by
    intro chars
    unfold byteCount
    induction chars with
    | nil => simp
    | cons c rest ih =>
        intro start
        rw [List.foldl_cons, ih, List.foldl_cons, ih (0 + c.utf8Size)]
        omega
  rw [byteCount, List.foldl_append, hfrom second]
  rfl

theorem splitIgnored_append {inComment : Bool} {chars taken rest : List Char}
    (h : splitIgnored inComment chars = (taken, rest)) : chars = taken ++ rest := by
  induction chars generalizing inComment taken with
  | nil =>
      cases h
      rfl
  | cons c chars ih =>
      unfold splitIgnored at h
      split at h
      · cases h
        simp [← ih (rfl : splitIgnored (!isLineEnd c) chars = _)]
      · split at h
        · cases h
          simp [← ih (rfl : splitIgnored false chars = _)]
        · split at h
          · cases h
            simp [← ih (rfl : splitIgnored true chars = _)]
          · cases h
            rfl

/-- A cursor comes from another by taking characters off, all of which are counted. -/
def Cursor.Moves (cursor later : Cursor) : Prop :=
  ∃ taken, cursor.rest = taken ++ later.rest ∧
    later.offset = cursor.offset + byteCount taken ∧ later.positions = cursor.positions

theorem Cursor.moves_move {cursor : Cursor} {taken rest : List Char}
    (h : cursor.rest = taken ++ rest) : cursor.Moves (cursor.move taken rest) :=
  ⟨taken, h, rfl, rfl⟩

instance : Passage Cursor.Moves where
  refl cursor := ⟨[], rfl, rfl, rfl⟩
  trans := by
    rintro first second third ⟨taken, hrest, hoffset, hpositions⟩
      ⟨more, hmore, hmoreOffset, hmorePositions⟩
    refine ⟨taken ++ more, by rw [hrest, hmore, List.append_assoc], ?_,
      hmorePositions.trans hpositions⟩
    rw [hmoreOffset, hoffset, byteCount_append]
    omega
  blame cursor fault := ⟨[], rfl, rfl, rfl⟩
  ignored _ _ _ h := Cursor.moves_move (splitIgnored_append h)
  plain _ _ _ h _ := Cursor.moves_move h
  string _ _ _ _ h _ := Cursor.moves_move h
  parens := by
    rintro cursor inside last rest hopen ⟨taken, htaken, hoffset, hpositions⟩ hclose
    refine ⟨['('] ++ taken ++ [')'], ?_, ?_, hpositions⟩
    · have hinside : inside = taken ++ last.rest := htaken
      rw [hopen, hinside, hclose]
      simp [Cursor.move]
    · show last.offset + byteCount [')'] = _
      rw [hoffset, byteCount_append, byteCount_append]
      show cursor.offset + byteCount ['('] + byteCount taken + byteCount [')'] = _
      omega

end QueryAudit.Grammar
