import QueryAudit.Proofs.Declarations
import QueryAudit.Proofs.Scanning

/-!
# Repeatability read from the text

The grammar sees the keyword `repeatable` in a directive definition, and the flag of the schema is
looked up again in the text, from the reported position of the definition. The two agree where the
position leads back to the definition, what stands before the keyword is clear text, and the keyword
is a word of its own.
-/

namespace QueryAudit

/-! ## Places and positions -/

namespace Position

def lastLine : List Char → List Char
  | [] => []
  | c :: rest => if '\n' ∈ c :: rest then lastLine rest else c :: rest

theorem lastLine_of_not_mem {chars : List Char} (h : '\n' ∉ chars) : lastLine chars = chars := by
  cases chars with
  | nil => rfl
  | cons c rest => rw [lastLine, if_neg h]

theorem walk_length (p : Position) (before own : List Char) :
    walk p before.length (before ++ own) = before.foldl advance p := by
  induction before generalizing p with
  | nil => cases own <;> rfl
  | cons c before ih => exact ih (p.advance c)

theorem advance_line (p : Position) (c : Char) :
    (p.advance c).line = p.line + if c = '\n' then 1 else 0 := by
  unfold advance
  split
  · rfl
  · split <;> rfl

theorem foldl_advance_line (p : Position) (before : List Char) :
    (before.foldl advance p).line = p.line + before.count '\n' := by
  induction before generalizing p with
  | nil => rfl
  | cons c before ih =>
      rw [List.foldl_cons, ih, advance_line, List.count_cons]
      simp only [beq_iff_eq]
      omega

/-- Without a carriage return in its last line, a text is left in the column after that line. -/
theorem foldl_advance_column (p : Position) {before : List Char} (h : '\r' ∉ lastLine before) :
    (before.foldl advance p).column =
      (if '\n' ∈ before then 1 else p.column) + (lastLine before).length := by
  induction before generalizing p with
  | nil => rfl
  | cons c before ih =>
      rw [List.foldl_cons]
      by_cases hline : '\n' ∈ c :: before
      · rw [lastLine, if_pos hline] at h ⊢
        rw [ih (p.advance c) h, if_pos hline]
        by_cases hrest : '\n' ∈ before
        · rw [if_pos hrest]
        · obtain rfl : '\n' = c := (List.mem_cons.mp hline).resolve_right hrest
          rw [if_neg hrest]
          rfl
      · rw [lastLine, if_neg hline] at h ⊢
        have hfirst : c ≠ '\n' := fun heq => hline (heq ▸ List.mem_cons_self)
        have hreturn : c ≠ '\r' := fun heq => h (heq ▸ List.mem_cons_self)
        have hrest : '\n' ∉ before := fun hmem => hline (List.mem_cons_of_mem _ hmem)
        have hadvance : p.advance c = ⟨p.line, p.column + 1⟩ := by
          rw [advance, if_neg hfirst, if_neg hreturn]
        have hlast := lastLine_of_not_mem hrest
        have hreturns : '\r' ∉ lastLine before := by
          rw [hlast]
          exact fun hmem => h (List.mem_cons_of_mem _ hmem)
        rw [ih (p.advance c) hreturns, if_neg hrest, if_neg hline, hlast, hadvance,
          List.length_cons]
        dsimp only
        omega

end Position

namespace Repeatable

open Grammar Position

theorem dropLines_count (before own : List Char) :
    dropLines (before.count '\n') (before ++ own) = lastLine before ++ own := by
  induction before with
  | nil => cases own <;> rfl
  | cons c before ih =>
      by_cases hfirst : c = '\n'
      · subst hfirst
        rw [List.count_cons_self, List.cons_append, dropLines, if_pos rfl, ih, lastLine,
          if_pos List.mem_cons_self]
      · rw [List.count_cons_of_ne hfirst]
        by_cases hrest : '\n' ∈ before
        · obtain ⟨lines, hlines⟩ : ∃ lines, before.count '\n' = lines + 1 :=
            Nat.exists_eq_add_one.mpr (List.count_pos_iff.mpr hrest)
          rw [lastLine, if_pos (List.mem_cons_of_mem c hrest), ← ih, hlines, List.cons_append,
            dropLines, if_neg hfirst]
        · have hline : '\n' ∉ c :: before := by
            simp [hrest, Ne.symm hfirst]
          rw [List.count_eq_zero.mpr hrest, dropLines, lastLine, if_neg hline]

theorem dropInLine_length {line : List Char} (h : '\n' ∉ line) (own : List Char) :
    dropInLine line.length (line ++ own) = own := by
  induction line with
  | nil => cases own <;> rfl
  | cons c line ih =>
      have hfirst : c ≠ '\n' := fun heq => h (heq ▸ List.mem_cons_self)
      rw [List.length_cons, List.cons_append, dropInLine, if_neg hfirst]
      exact ih fun hmem => h (List.mem_cons_of_mem _ hmem)

theorem not_mem_lastLine (before : List Char) : '\n' ∉ lastLine before := by
  induction before with
  | nil => exact List.not_mem_nil
  | cons c before ih =>
      rw [lastLine]
      split
      · exact ih
      · assumption

/-- Every character before a place takes one byte, and the place is on a line without a carriage
return before it. -/
def Located (before : List Char) : Prop :=
  (∀ c ∈ before, c.utf8Size = 1) ∧ '\r' ∉ lastLine before

instance (before : List Char) : Decidable (Located before) :=
  letI : Decidable (∀ c ∈ before, c.utf8Size = 1) := List.decidableBAll _ before
  inferInstanceAs (Decidable (_ ∧ _))

theorem byteCount_eq_length {before : List Char} (h : ∀ c ∈ before, c.utf8Size = 1) :
    byteCount before = before.length := by
  induction before with
  | nil => rfl
  | cons c before ih =>
      have hrest := ih fun other hother => h other (List.mem_cons_of_mem _ hother)
      have hfirst : byteCount [c] = 1 := by
        rw [byteCount, List.foldl_cons, h c List.mem_cons_self]
        rfl
      rw [← List.singleton_append, byteCount_append, hfirst, hrest, List.length_append]
      rfl

/-- The position of such a place leads back to it. -/
theorem Located.suffixAt {before : List Char} (h : Located before) (own : List Char) :
    suffixAt (before ++ own) (walk start (byteCount before) (before ++ own)) = own := by
  obtain ⟨hbytes, hreturn⟩ := h
  rw [byteCount_eq_length hbytes, walk_length, Repeatable.suffixAt, foldl_advance_line,
    foldl_advance_column _ hreturn]
  have hline : start.line + before.count '\n' - 1 = before.count '\n' := by
    show 1 + _ - 1 = _
    omega
  have hcolumn : (if '\n' ∈ before then 1 else start.column) + (lastLine before).length - 1 =
      (lastLine before).length := by
    show (if _ then 1 else 1) + _ - 1 = _
    rw [ite_self]
    omega
  rw [hline, hcolumn, dropLines_count, dropInLine_length (not_mem_lastLine before)]

end Repeatable

/-! ## Reading a directive definition -/

namespace Grammar.Reader

/-- A directive definition up to the keywords after its arguments. -/
def directiveHead : Reader Unit := do
  let _ ← description
  mark "directive"
  mark "@"
  let _ ← name
  let _ ← listOrNone argumentsDefinition
  skip

theorem directiveHead_leads {R : Cursor → Cursor → Prop} [Passage R] : Leads R directiveHead :=
  string_leads.maybe.bind fun _ => (mark_leads rfl).bind fun _ => (mark_leads rfl).bind fun _ =>
    name_leads.bind fun _ => argumentsDefinition_leads.listOrNone.bind fun _ => .skip

/-- What stands after the head of a definition: the one keyword or the other, as the flag says. -/
inductive Keyworded : Bool → List Char → Prop
  | repeatable {after between more : List Char}
      (h : splitIgnored false after = (between, "on".toList ++ more)) :
      Keyworded true ("repeatable".toList ++ after)
  | once (more : List Char) : Keyworded false ("on".toList ++ more)

theorem skip_eq_some {cursor last : Cursor} {result : Unit}
    (h : skip cursor = some (result, last)) :
    ∃ taken, splitIgnored false cursor.rest = (taken, last.rest) := by
  cases h
  exact ⟨_, rfl⟩

/-- Where a directive definition is read, its head is, and the keywords follow. -/
theorem directiveDefinition_eq_some {cursor stop : Cursor} {position : Position}
    {definition : DirectiveDefinition}
    (h : directiveDefinition cursor = some (.directive position definition, stop)) :
    ∃ start last, skip cursor = some ((), start) ∧
      position = start.positions.locate start.offset ∧
      directiveHead start = some ((), last) ∧ Keyworded definition.repeatable last.rest := by
  obtain ⟨place, start, hhere, h⟩ := bind_eq_some.mp h
  obtain ⟨_, middle, hstart, hplace⟩ := seqRight_eq_some.mp hhere
  cases hplace
  obtain ⟨text, c1, htext, h⟩ := bind_eq_some.mp h
  obtain ⟨_, c2, hdirective, h⟩ := bind_eq_some.mp h
  obtain ⟨_, c3, hat, h⟩ := bind_eq_some.mp h
  obtain ⟨title, c4, htitle, h⟩ := bind_eq_some.mp h
  obtain ⟨arguments, c5, harguments, h⟩ := bind_eq_some.mp h
  obtain ⟨repeatable, c6, hrepeatable, h⟩ := bind_eq_some.mp h
  obtain ⟨_, c7, hon, h⟩ := bind_eq_some.mp h
  obtain ⟨locations, c8, hlocations, h⟩ := bind_eq_some.mp h
  obtain ⟨heq, -⟩ := pure_eq_some.mp h
  cases heq
  have hhead : ∀ {last}, skip c5 = some ((), last) → directiveHead start = some ((), last) := by
    intro last hlast
    exact bind_eq_some.mpr ⟨text, c1, htext, bind_eq_some.mpr ⟨(), c2, hdirective,
      bind_eq_some.mpr ⟨(), c3, hat, bind_eq_some.mpr ⟨title, c4, htitle,
        bind_eq_some.mpr ⟨arguments, c5, harguments, hlast⟩⟩⟩⟩⟩
  obtain ⟨beforeOn, more, hbeforeOn, hmore, -⟩ := mark_eq_some hon
  rcases orElse_eq_some.mp hrepeatable with hkeyword | ⟨-, hnone⟩
  · obtain ⟨_, middle, hmark, hpure⟩ := seqRight_eq_some.mp hkeyword
    obtain ⟨rfl, rfl⟩ := pure_eq_some.mp hpure
    obtain ⟨last, after, hlast, hafter, rfl⟩ := mark_eq_some hmark
    obtain ⟨between, hbetween⟩ := skip_eq_some hbeforeOn
    refine ⟨start, last, hstart, rfl, hhead hlast, ?_⟩
    rw [hafter]
    exact .repeatable (hbetween.trans (by rw [hmore]))
  · obtain ⟨rfl, rfl⟩ := pure_eq_some.mp hnone
    refine ⟨start, beforeOn, hstart, rfl, hhead hbeforeOn, ?_⟩
    rw [hmore]
    exact .once more

/-- Only a directive definition is read as one. -/
theorem declaration_eq_directive {cursor stop : Cursor} {position : Position}
    {definition : DirectiveDefinition}
    (h : declaration cursor = some (.directive position definition, stop)) :
    directiveDefinition cursor = some (.directive position definition, stop) := by
  have hother : ∀ {reader : Reader Declaration},
      Yields reader (∀ position definition, · ≠ .directive position definition) →
      reader cursor ≠ some (.directive position definition, stop) :=
    fun hyields hread => hyields _ _ _ hread position definition rfl
  have htype : ∀ {keyword : String} {kind : TypeKind}
      {body extensionBody : TypeDefinition → Reader TypeDefinition},
      typeForms keyword kind body extensionBody cursor ≠
        some (.directive position definition, stop) :=
    hother (Yields.typeForms (fun _ _ => yields_true _) (fun _ => yields_true _)
      fun _ _ _ _ _ heq => by cases heq)
  have hschema : schemaDefinition cursor ≠ some (.directive position definition, stop) := by
    refine hother (Yields.after fun _ => Yields.orElse ?_ ?_)
    · refine Yields.after fun _ => Yields.after fun _ => Yields.after fun roots => ?_
      split
      · exact Yields.after fun _ => Yields.pure fun _ _ heq => by cases heq
      · exact Yields.pure fun _ _ heq => by cases heq
    · refine Yields.after fun _ => Yields.after fun _ => Yields.after fun _ => ?_
      exact Yields.pure fun _ _ heq => by cases heq
  obtain ⟨-, h⟩ := (orElse_eq_some.mp h).resolve_left hschema
  obtain ⟨-, h⟩ := (orElse_eq_some.mp h).resolve_left htype
  obtain ⟨-, h⟩ := (orElse_eq_some.mp h).resolve_left htype
  obtain ⟨-, h⟩ := (orElse_eq_some.mp h).resolve_left htype
  obtain ⟨-, h⟩ := (orElse_eq_some.mp h).resolve_left htype
  obtain ⟨-, h⟩ := (orElse_eq_some.mp h).resolve_left htype
  obtain ⟨-, h⟩ := (orElse_eq_some.mp h).resolve_left htype
  exact h

/-- A name is the longest run of its characters. -/
theorem name_eq_some {cursor last : Cursor} {title : Name} (h : name cursor = some (title, last)) :
    ∃ middle chars, skip cursor = some ((), middle) ∧ middle.rest = chars ++ last.rest ∧
      chars ≠ [] ∧ (∀ c ∈ chars, isNameChar c = true) ∧
      ∀ c ∈ last.rest.head?, isNameChar c = false := by
  obtain ⟨_, middle, hskip, hraw⟩ := seqRight_eq_some.mp h
  obtain ⟨first, second, hfirst, hraw⟩ := bind_eq_some.mp hraw
  obtain ⟨others, third, hothers, hpure⟩ := bind_eq_some.mp hraw
  obtain ⟨-, rfl⟩ := pure_eq_some.mp hpure
  have hstart : middle.rest = first :: second.rest ∧ isNameStart first = true := by
    unfold nameStart one at hfirst
    split at hfirst
    · rename_i c rest hrest
      split at hfirst
      · rename_i haccepts
        cases hfirst
        exact ⟨hrest, haccepts⟩
      · cases hfirst
    · cases hfirst
  cases hothers
  refine ⟨middle, first :: second.rest.takeWhile isNameChar, hskip, ?_, by simp, ?_, ?_⟩
  · rw [hstart.1]
    exact congrArg _ List.takeWhile_append_dropWhile.symm
  · intro c hc
    rcases List.mem_cons.mp hc with rfl | hc
    · exact isNameChar_of_isNameStart hstart.2
    · exact List.all_eq_true.mp List.all_takeWhile c hc
  · intro c hc
    have hfirst : (second.rest.dropWhile isNameChar).head? = some c := hc
    have hhead := List.head?_dropWhile_not isNameChar second.rest
    rw [hfirst] at hhead
    exact hhead

end Grammar.Reader

/-! ## The scan over a definition -/

namespace Repeatable

open Grammar Grammar.Reader

theorem keywordFollows_at {before : List String} (h : Quiet before) (after : List String) :
    keywordFollows (before ++ "@" :: after) = keywordFollows ("@" :: after) := by
  have hdrop : (before ++ "@" :: after).dropWhile (· ≠ "@") = "@" :: after := by
    rw [List.dropWhile_append_of_pos]
    · rfl
    · intro word hword
      have hne : word ≠ "@" := by
        rintro rfl
        exact absurd (h _ hword '@' (by decide)) (by decide)
      simpa using hne
  unfold keywordFollows
  rw [hdrop]
  rfl

theorem keywordFollows_name (name : String) {rest : List String} (h : rest.head? ≠ some "(") :
    keywordFollows ("@" :: name :: rest) = decide (rest.head? = some "repeatable") := by
  cases rest with
  | nil => rfl
  | cons next rest =>
      have hnext : next ≠ "(" := fun heq => h (congrArg some heq)
      have hdrop : ("@" :: name :: next :: rest).dropWhile (· ≠ "@") =
          "@" :: name :: next :: rest := rfl
      unfold keywordFollows
      rw [hdrop]
      dsimp only
      split
      · rename_i heq
        exact absurd (List.cons.inj heq).1 hnext
      · rename_i heq
        cases heq
        simp
      · rename_i heq
        cases heq

theorem keywordFollows_arguments (name : String) {inside : List String} (h : Level inside)
    (rest : List String) :
    keywordFollows ("@" :: name :: "(" :: (inside ++ ")" :: rest)) =
      decide (rest.head? = some "repeatable") := by
  show decide ((afterParens 1 (inside ++ ")" :: rest)).head? = _) = _
  rw [h 0]
  rfl

theorem closeWord_of_ne_nil {word : List Char} (h : word ≠ []) (more : List String) :
    closeWord word more = String.ofList word :: more := by
  unfold closeWord
  rw [if_neg (by simpa using h)]

theorem words_closed {c : Char} (h : isWordChar c = false) (rest : List Char) :
    ∃ more, ∀ word, words .plain word (c :: rest) = closeWord word more := by
  by_cases hquote : c = '"'
  · subst hquote
    by_cases hblock : ['"', '"'] <+: rest
    · obtain ⟨inside, rfl⟩ := hblock
      exact ⟨_, fun word => words_openBlock word inside⟩
    · exact ⟨_, fun word => words_quote hblock word⟩
  · have hstep := words_plain (not_threeQuotes hquote rest)
    simp only [h, Bool.false_eq_true, if_false] at hstep
    exact ⟨_, hstep⟩

/-- The first word of a text that starts with one. -/
theorem words_head {word chars : List Char} (h : word ++ chars.takeWhile isWordChar ≠ []) :
    (words .plain word chars).head? =
      some (String.ofList (word ++ chars.takeWhile isWordChar)) := by
  induction chars generalizing word with
  | nil =>
      rw [List.takeWhile_nil, List.append_nil] at h ⊢
      rw [words_nil, closeWord_of_ne_nil h]
      rfl
  | cons c chars ih =>
      cases hc : isWordChar c with
      | true =>
          rw [List.takeWhile_cons_of_pos hc, List.append_cons] at h ⊢
          rw [words_wordChar hc, ih h]
      | false =>
          rw [List.takeWhile_cons_of_neg (by simp [hc]), List.append_nil] at h ⊢
          obtain ⟨more, hmore⟩ := words_closed hc chars
          rw [hmore, closeWord_of_ne_nil h]
          rfl

/-! ### Reading in step -/

theorem skip_inStep {cursor last : Cursor} {result : Unit}
    (h : skip cursor = some (result, last)) : InStep Quiet cursor.rest last.rest := by
  obtain ⟨taken, htaken⟩ := skip_eq_some h
  exact inStep_ignored htaken

theorem mark_inStep {text : String} (hword : IsWord text.toList) {cursor last : Cursor}
    {result : Unit} (h : mark text cursor = some (result, last)) :
    InStep Quiet cursor.rest last.rest := by
  obtain ⟨middle, rest, hskip, hrest, rfl⟩ := mark_eq_some h
  refine (skip_inStep hskip).trans (fun _ _ => Quiet.append) ?_
  rw [hrest]
  exact inStep_isWord hword rest

theorem description_inStep {cursor last : Cursor} {result : Option String}
    (h : description cursor = some (result, last)) : InStep Quiet cursor.rest last.rest := by
  rcases orElse_eq_some.mp h with hsome | ⟨-, hnone⟩
  · obtain ⟨content, hstring, -⟩ := map_eq_some.mp hsome
    obtain ⟨_, middle, hskip, hscan⟩ := seqRight_eq_some.mp hstring
    obtain ⟨⟨found, rest⟩, hfound, heq⟩ := Option.map_eq_some_iff.mp hscan
    cases heq
    exact (skip_inStep hskip).trans (fun _ _ => Quiet.append) (inStep_string hfound)
  · obtain ⟨-, rfl⟩ := pure_eq_some.mp hnone
    exact InStep.refl quiet_nil last.rest

/-- What is ignored before a mark only ends the word being read. -/
theorem words_ignored_mark {here taken rest stop : List Char} {c : Char}
    (h : splitIgnored false here = (taken, c :: rest)) (hclear : Clear here stop)
    (hstop : stop <:+ c :: rest) (hword : isWordChar c = false) (hpassed : isPassed c = false)
    (hquote : c ≠ '"') (hhash : c ≠ '#') (word : List Char) :
    words .plain word here = closeWord word (String.singleton c :: words .plain [] rest) := by
  by_cases htaken : taken = []
  · subst htaken
    rw [show here = c :: rest from splitIgnored_append h, words_mark hword hpassed hquote hhash]
  · rw [(words_ignored h hclear hstop).1 htaken, words_mark hword hpassed hquote hhash]
    rfl

theorem words_isWord {chars : List Char} (h : IsWord chars) (word rest : List Char) :
    words .plain word (chars ++ rest) = words .plain (word ++ chars) rest := by
  induction chars generalizing word with
  | nil => rw [List.nil_append, List.append_nil]
  | cons c chars ih =>
      rw [List.cons_append, words_wordChar (h c List.mem_cons_self),
        ih (fun other hother => h other (List.mem_cons_of_mem _ hother)), ← List.append_cons]

/-- The arguments of a definition are, for the scan, words with balanced parentheses in
parentheses. -/
theorem words_arguments {cursor last : Cursor} {arguments : NameTable InputValue}
    (hread : argumentsDefinition cursor = some (arguments, last)) {stop : List Char}
    (hclear : Clear cursor.rest stop) (hstop : stop <:+ last.rest) {word : List Char}
    (hword : word ≠ []) :
    ∃ inside, Level inside ∧ Clear last.rest stop ∧
      words .plain word cursor.rest =
        String.ofList word :: "(" :: (inside ++ ")" :: words .plain [] last.rest) := by
  obtain ⟨items, hitems, -⟩ := map_eq_some.mp hread
  obtain ⟨_, middle, hfirst, hclose⟩ := bind_eq_some.mp hitems
  obtain ⟨_, closed, hmark, hpure⟩ := bind_eq_some.mp hclose
  obtain ⟨-, rfl⟩ := pure_eq_some.mp hpure
  obtain ⟨_, opened, hopen, hinside⟩ := seqRight_eq_some.mp hfirst
  obtain ⟨first, inside, hskipFirst, hfirstRest, rfl⟩ := mark_eq_some hopen
  obtain ⟨second, rest, hskipSecond, hsecondRest, rfl⟩ := mark_eq_some hmark
  have hlevel : InStep Level inside (')' :: rest) := by
    have hitems : Leads (fun cursor later => InStep Level cursor.rest later.rest)
      (oneOrMore inputValue) := inputValue_leads.oneOrMore
    have hclosing := (skip_inStep hskipSecond).level
    rw [hsecondRest] at hclosing
    exact (hitems _ _ _ hinside).trans (fun _ _ => Level.append) hclosing
  have hstopSecond : stop <:+ ')' :: rest := hstop.trans (List.suffix_cons _ _)
  have hstopInside : stop <:+ inside := hstopSecond.trans hlevel.1
  have hstopFirst : stop <:+ '(' :: inside := hstopInside.trans (List.suffix_cons _ _)
  obtain ⟨taken, htaken⟩ := skip_eq_some hskipFirst
  have hsplit : splitIgnored false cursor.rest = (taken, '(' :: inside) :=
    htaken.trans (by rw [hfirstRest]; rfl)
  have hclearFirst : Clear ('(' :: inside) stop := (words_ignored hsplit hclear hstopFirst).2
  have hclearInside := hclearFirst.tail hstopInside (by decide) (by decide)
  obtain ⟨hpasses, hclearSecond⟩ := hlevel.2 stop hclearInside hstopSecond
  obtain ⟨found, next, hfound, hnext, heq⟩ := hpasses [] isWord_nil
  obtain ⟨more, hmore, hclosing⟩ :=
    words_mark_eq (c := ')') rfl rfl (by decide) (by decide) hnext rest
  refine ⟨found ++ more, hfound.append hmore.level,
    hclearSecond.tail hstop (by decide) (by decide), ?_⟩
  rw [words_ignored_mark hsplit hclear hstopFirst rfl rfl (by decide) (by decide),
    closeWord_of_ne_nil hword, heq, hclosing, List.append_assoc]
  rfl

/-! ### Heads of definitions -/

/-- After the name of a definition, the scan passes the arguments, if there are any, and compares
the first word of what is left. -/
theorem keywordFollows_afterName {cursor middle last : Cursor} {arguments : NameTable InputValue}
    (hread : listOrNone argumentsDefinition cursor = some (arguments, middle))
    (hskip : skip middle = some ((), last)) (hclear : Clear cursor.rest last.rest)
    (hend : ∀ c ∈ cursor.rest.head?, isWordChar c = false)
    (hword : last.rest.takeWhile isWordChar ≠ []) {title : List Char} (htitle : title ≠ []) :
    keywordFollows ("@" :: words .plain title cursor.rest) =
      decide (last.rest.takeWhile isWordChar = "repeatable".toList) := by
  have hhead : (words .plain [] last.rest).head? =
      some (String.ofList (last.rest.takeWhile isWordChar)) := words_head hword
  have hcompare : ∀ text : String,
      (words .plain [] last.rest).head? = some text ↔
        last.rest.takeWhile isWordChar = text.toList := by
    intro text
    rw [hhead, Option.some.injEq, ← String.toList_inj, String.toList_ofList]
  have hkeyword : decide ((words .plain [] last.rest).head? = some "repeatable") =
      decide (last.rest.takeWhile isWordChar = "repeatable".toList) :=
    decide_eq_decide.mpr (hcompare "repeatable")
  obtain ⟨taken, htaken⟩ := skip_eq_some hskip
  rw [← hkeyword]
  rcases orElse_eq_some.mp hread with hsome | ⟨-, hnone⟩
  · obtain ⟨inside, hlevel, hclearMiddle, heq⟩ :=
      words_arguments hsome hclear (skip_inStep hskip).1 htitle
    have hmiddle : words .plain [] middle.rest = words .plain [] last.rest :=
      words_nil_ignored htaken (words_ignored htaken hclearMiddle (List.suffix_refl _)).1
    rw [heq, keywordFollows_arguments _ hlevel, hmiddle]
  · obtain ⟨-, rfl⟩ := pure_eq_some.mp hnone
    -- A name runs as far as it can, so something ignored stands between it and the keyword.
    have hsome : taken ≠ [] := by
      rintro rfl
      have hsame : middle.rest = last.rest := splitIgnored_append htaken
      rw [hsame] at hend
      cases hrest : last.rest with
      | nil => simp [hrest] at hword
      | cons c rest =>
          rw [hrest, List.takeWhile_cons_of_neg (by simp [hend c (by simp [hrest])])] at hword
          exact hword rfl
    rw [(words_ignored htaken hclear (List.suffix_refl _)).1 hsome, closeWord_of_ne_nil htitle]
    apply keywordFollows_name
    rw [Ne, hcompare]
    intro hopen
    have hparen : isWordChar '(' = true := by
      apply List.all_eq_true.mp (List.all_takeWhile (l := last.rest))
      rw [hopen]
      decide
    cases hparen

/-- The head of a directive definition stands at one place of a text and leaves another. -/
def ReadsHead (own tail : List Char) : Prop :=
  ∃ cursor last, cursor.rest = own ∧ directiveHead cursor = some ((), last) ∧ last.rest = tail

/-- After a head, the scan comes to the first word of what is left. -/
theorem ReadsHead.keywordFollows {own tail : List Char} (h : ReadsHead own tail)
    (hclear : Clear own tail) (hword : tail.takeWhile isWordChar ≠ []) :
    keywordFollows (words .plain [] own) =
      decide (tail.takeWhile isWordChar = "repeatable".toList) := by
  obtain ⟨cursor, last, rfl, hread, rfl⟩ := h
  obtain ⟨_, c1, hdescription, hread⟩ := bind_eq_some.mp hread
  obtain ⟨_, c2, hdirective, hread⟩ := bind_eq_some.mp hread
  obtain ⟨_, c3, hat, hread⟩ := bind_eq_some.mp hread
  obtain ⟨_, c4, hname, hread⟩ := bind_eq_some.mp hread
  obtain ⟨_, c5, harguments, hlast⟩ := bind_eq_some.mp hread
  obtain ⟨marked, rest, hskipMark, hmarked, rfl⟩ := mark_eq_some hat
  obtain ⟨named, title, hskipName, hnamed, htitle, hchars, hend⟩ := name_eq_some hname
  simp only [← isWordChar_eq_isNameChar] at hchars hend
  -- The place behind the head comes after all the others.
  have hbehindName : last.rest <:+ c4.rest := by
    have hlist : Leads (fun cursor later => InStep Level cursor.rest later.rest)
      (listOrNone argumentsDefinition) := argumentsDefinition_leads.listOrNone
    exact (skip_inStep hlast).1.trans (hlist _ _ _ harguments).1
  have hbehindSkip : last.rest <:+ named.rest := by
    rw [hnamed]
    exact hbehindName.trans (List.suffix_append _ _)
  have hbehindMark : last.rest <:+ rest := hbehindSkip.trans (skip_inStep hskipName).1
  have hbehind : last.rest <:+ '@' :: rest := hbehindMark.trans (List.suffix_cons _ _)
  have hfirst : InStep Quiet cursor.rest ('@' :: rest) := by
    have hskip := skip_inStep hskipMark
    rw [hmarked] at hskip
    have hkeyword : ∀ c ∈ "directive".toList, isWordChar c = true :=
      List.all_eq_true.mp rfl
    exact ((description_inStep hdescription).trans (fun _ _ => Quiet.append)
      (mark_inStep hkeyword hdirective)).trans (fun _ _ => Quiet.append) hskip
  obtain ⟨hpasses, hclearMark⟩ := hfirst.2 last.rest hclear hbehind
  have hclearRest := hclearMark.tail hbehindMark (by decide) (by decide)
  obtain ⟨taken, htaken⟩ := skip_eq_some hskipName
  obtain ⟨hignored, hclearNamed⟩ := words_ignored htaken hclearRest hbehindSkip
  have hclearName : Clear c4.rest last.rest := by
    rw [hnamed] at hclearNamed
    exact ((inStep_isWord hchars c4.rest).2 last.rest hclearNamed hbehindName).2
  obtain ⟨before, next, hbefore, hnext, hwords⟩ := hpasses [] isWord_nil
  obtain ⟨closed, hclosed, hmark⟩ :=
    words_mark_eq (c := '@') rfl rfl (by decide) (by decide) hnext rest
  have hname : words .plain [] rest = words .plain title c4.rest := by
    have hskipped : words .plain [] rest = words .plain [] named.rest :=
      words_nil_ignored htaken hignored
    rw [hskipped, hnamed, words_isWord hchars, List.nil_append]
  rw [hwords, hmark, ← List.append_assoc, hname]
  show Repeatable.keywordFollows (before ++ closed ++ "@" :: _) = _
  rw [keywordFollows_at (hbefore.append hclosed)]
  exact keywordFollows_afterName harguments hlast hclearName hend hword htitle

theorem splitIgnored_of_isWordChar {c : Char} (h : isWordChar c = true) (rest : List Char) :
    splitIgnored false (c :: rest) = ([], c :: rest) := by
  have hignored : isIgnored c = false := by
    cases hc : isIgnored c with
    | false => rfl
    | true =>
        rw [(isPassed_of_isIgnored hc).2] at h
        cases h
  have hhash : c ≠ '#' := ne_of_isWordChar h rfl
  simp [splitIgnored, hignored, hhash]

end Repeatable

namespace Grammar.Reader.Keyworded

open Repeatable

variable {flag : Bool} {tail : List Char}

theorem prefix_iff (h : Keyworded flag tail) : flag = true ↔ "repeatable".toList <+: tail := by
  cases h with
  | repeatable => exact ⟨fun _ => List.prefix_append _ _, fun _ => rfl⟩
  | once more => simp [List.cons_prefix_cons]

/-- The first word is the keyword, unless the next keyword follows without a break. -/
theorem takeWhile_eq_iff (h : Keyworded flag tail) :
    tail.takeWhile isWordChar = "repeatable".toList ↔
      flag = true ∧ ¬ "repeatableon".toList <+: tail := by
  cases h with
  | once more => simp [isWordChar]
  | @repeatable after between more hsplit =>
      have hkeyword : ∀ c ∈ "repeatable".toList, isWordChar c = true :=
        List.all_eq_true.mp rfl
      have hbreak : after.takeWhile isWordChar = [] ↔ ¬ "on".toList <+: after := by
        constructor
        · rintro hnil ⟨rest, rfl⟩
          simp [isWordChar] at hnil
        · intro hon
          cases after with
          | nil => rfl
          | cons c rest =>
              cases hc : isWordChar c with
              | false => exact List.takeWhile_cons_of_neg (by simp [hc])
              | true =>
                  rw [splitIgnored_of_isWordChar hc] at hsplit
                  exact absurd ⟨more, (congrArg Prod.snd hsplit).symm⟩ hon
      have hnext : "repeatableon".toList <+: "repeatable".toList ++ after ↔
          "on".toList <+: after :=
        List.prefix_append_right_inj "repeatable".toList
      rw [List.takeWhile_append_of_pos hkeyword, hnext, ← hbreak]
      simp

theorem takeWhile_ne_nil (h : Keyworded flag tail) : tail.takeWhile isWordChar ≠ [] := by
  cases h with
  | repeatable => simp [isWordChar]
  | once => simp [isWordChar]

end Grammar.Reader.Keyworded

/-! ## Directives of a schema -/

theorem Declared.find?_foldl_add (text : String) (declared : Declared) {name : Name}
    {later : List Declaration}
    (h : ∀ position other, .directive position other ∈ later → other.name ≠ name) :
    (later.foldl (add text) declared).directives.find? name = declared.directives.find? name := by
  induction later generalizing declared with
  | nil => rfl
  | cons declaration later ih =>
      rw [List.foldl_cons, ih _ fun position other hmem => h position other (.tail _ hmem)]
      cases declaration with
      | roots => rfl
      | type isExtension type =>
          have hsame : (declared.addType isExtension type).directives = declared.directives := by
            unfold addType
            split <;> rfl
          exact congrArg (NameTable.find? · name) hsame
      | directive position other =>
          show NameTable.find? (NameTable.insert _ _ _) _ = _
          rw [NameTable.find?_insert, if_neg (h position other List.mem_cons_self)]

/-- The last definition of a directive is in the schema, with the flag that is looked up. -/
theorem Schema.directive?_of_last {text : String} {earlier later : List Declaration}
    {position : Position} {definition : DirectiveDefinition} {schema : Schema}
    (hread : Declaration.ofText text = .ok (earlier ++ .directive position definition :: later))
    (hlast : ∀ place other, .directive place other ∈ later → other.name ≠ definition.name)
    (hschema : Schema.ofText text = .ok schema) :
    schema.directive? definition.name =
      some { definition with repeatable := Repeatable.isRepeatable text position } := by
  simp only [ofText, hread, ofDeclared] at hschema
  obtain ⟨_, -, hschema⟩ := bind_eq_ok hschema
  obtain ⟨_, -, hschema⟩ := bind_eq_ok hschema
  obtain ⟨_, -, hschema⟩ := bind_eq_ok hschema
  cases hschema
  apply NameTable.find?_foldl_insertNew
  rw [Declared.ofDeclarations, List.foldl_append, List.foldl_cons,
    Declared.find?_foldl_add text _ hlast]
  show NameTable.find? (NameTable.insert _ _ _) _ = _
  rw [NameTable.find?_insert, if_pos rfl]

/-! ## Agreement -/

open Repeatable Grammar Grammar.Reader

/-- Whether a declaration is the definition of a repeatable directive, reported at a position. -/
def Declaration.repeatableAt (position : Position) : Declaration → Bool
  | .directive place definition => place = position && definition.repeatable
  | _ => false

theorem Declaration.exists_of_repeatableAt (position : Position) (text : String)
    (h : Schema.textPasses (fun declarations _ => declarations.any (repeatableAt position)) text =
      true) :
    ∃ declarations definition, ofText text = .ok declarations ∧
      .directive position definition ∈ declarations ∧ definition.repeatable = true := by
  obtain ⟨declarations, _, hread, -, hany⟩ := Schema.exists_of_textPasses h
  obtain ⟨declaration, hmem, hat⟩ := List.any_eq_true.mp hany
  cases declaration with
  | roots => cases hat
  | type => cases hat
  | directive place definition =>
      obtain ⟨hplace, hrepeatable⟩ := Bool.and_eq_true_iff.mp hat
      obtain rfl := of_decide_eq_true hplace
      exact ⟨declarations, definition, hread, hmem, hrepeatable⟩

theorem Repeatable.Clear.chars {taken rest stop : List Char}
    (h : (taken.all fun c => c != '"' && c != '#') = true) (hrest : Clear rest stop) :
    Clear (taken ++ rest) stop := by
  induction taken with
  | nil => exact hrest
  | cons c taken ih =>
      simp only [List.all_cons, Bool.and_eq_true, bne_iff_ne] at h
      obtain ⟨⟨hquote, hhash⟩, hothers⟩ := h
      exact .char hquote hhash (ih hothers)

/-- A definition with a parenthesis in a string and in a comment before the keyword. -/
def Repeatable.sample : String :=
  "directive@a(b:S=\"\\\"(\")#(\nrepeatable on FIELD type Query{f:Int}"

theorem Repeatable.clear_sample : Clear sample.toList (sample.toList.drop 25) := by
  have htext : sample.toList = "directive@a(b:S=".toList ++
      '"' :: ("\\\"(\"".toList ++ ')' :: '#' :: (['('] ++ (['\n'] ++ sample.toList.drop 25))) := by
    decide +kernel
  generalize sample.toList.drop 25 = stop at htext ⊢
  rw [htext]
  refine Clear.chars rfl (Clear.string (by simp) rfl ?_)
  exact .char (by decide) (by decide) (.comment (by simp [isLineEnd]) (.inl rfl) (.done stop))

/-- Every definition of a directive in a text is read by the grammar at some place, where its head
stands; it is repeatable just if the keyword comes behind. From its reported position the
place is found again if only characters of one byte, and on its line no carriage return, come before
it. From there the scan answers as the grammar does if the head is clear and the keyword does not
run into the next one, and what it answers is the flag of the schema, for the last definition of a
name.
-/
theorem repeatability_follows_grammar {text : String} {declarations : List Declaration}
    (hread : Declaration.ofText text = .ok declarations) {position : Position}
    {definition : DirectiveDefinition} (hmem : .directive position definition ∈ declarations) :
    (∃ before own tail, text.toList = before ++ own ∧ tail <:+ own ∧
      position = Position.walk Position.start (byteCount before) text.toList ∧
      ReadsHead own tail ∧
      (definition.repeatable = true ↔ "repeatable".toList <+: tail) ∧
      (Located before → suffixAt text.toList position = own) ∧
      (suffixAt text.toList position = own → Clear own tail →
        (isRepeatable text position = true ↔
          definition.repeatable = true ∧ ¬ "repeatableon".toList <+: tail))) ∧
    ∀ schema earlier later, Schema.ofText text = .ok schema →
      declarations = earlier ++ .directive position definition :: later →
      (∀ place other, .directive place other ∈ later → other.name ≠ definition.name) →
      schema.directive? definition.name =
        some { definition with repeatable := isRepeatable text position } := by
  refine ⟨?_, fun schema earlier later hschema hsplit hlast =>
    Schema.directive?_of_last (hsplit ▸ hread) hlast hschema⟩
  obtain ⟨cursor, stop, hcursor, hdeclaration⟩ :=
    mem_oneOrMore_onText (declaration_leads (R := Cursor.Moves)) hread hmem
  obtain ⟨start, last, hskip, hposition, hhead, hkeyword⟩ :=
    directiveDefinition_eq_some (declaration_eq_directive hdeclaration)
  obtain ⟨before, hbefore, hoffset, hpositions⟩ : (Cursor.ofChars text.toList).Moves start :=
    Passage.trans hcursor (Leads.skip _ _ _ hskip)
  obtain ⟨taken, htaken, -, -⟩ : start.Moves last := directiveHead_leads _ _ _ hhead
  have htext : text.toList = before ++ start.rest := hbefore
  have hwalk : position = Position.walk Position.start (byteCount before) text.toList := by
    rw [hposition, hpositions, hoffset]
    show (PositionMap.ofText text.toList).locate (0 + byteCount before) = _
    rw [PositionMap.locate_ofText, Nat.zero_add]
  have hreads : ReadsHead start.rest last.rest := ⟨start, last, rfl, hhead, rfl⟩
  refine ⟨before, start.rest, last.rest, htext, ⟨taken, htaken.symm⟩, hwalk, hreads,
    hkeyword.prefix_iff, fun hlocated => ?_, fun hplace hclear => ?_⟩
  · rw [hwalk, htext]
    exact hlocated.suffixAt start.rest
  · rw [isRepeatable, hplace, hreads.keywordFollows hclear hkeyword.takeWhile_ne_nil,
      decide_eq_true_iff]
    exact hkeyword.takeWhile_eq_iff

theorem repeatability_follows_grammar_sample :
    (∃ declarations definition, Declaration.ofText sample = .ok declarations ∧
      .directive ⟨1, 1⟩ definition ∈ declarations ∧ definition.repeatable = true ∧
      isRepeatable sample ⟨1, 1⟩ = true) ∧
    ∃ text declarations definition, Declaration.ofText text = .ok declarations ∧
      .directive ⟨1, 1⟩ definition ∈ declarations ∧ definition.repeatable = true ∧
      isRepeatable text ⟨1, 1⟩ = false := by
  constructor
  · obtain ⟨declarations, definition, hread, hmem, hrepeatable⟩ :=
      Declaration.exists_of_repeatableAt ⟨1, 1⟩ sample (by decide +kernel)
    refine ⟨declarations, definition, hread, hmem, hrepeatable, ?_⟩
    obtain ⟨⟨before, own, tail, htext, htail, hposition, -, hkeyword, hplace, hagree⟩, -⟩ :=
      repeatability_follows_grammar hread hmem
    -- No other place of the text has the first position, and the keyword stands in it once.
    have hbefore : before = [] := by
      have honly : ∀ count ≤ sample.toList.length, ⟨1, 1⟩ = Position.walk Position.start
          (byteCount (sample.toList.take count)) sample.toList → count = 0 := by decide +kernel
      have htake : sample.toList.take before.length = before := by rw [htext, List.take_left]
      have hlength : before.length ≤ sample.toList.length := by simp [htext]
      exact List.length_eq_zero_iff.mp (honly _ hlength (by rw [htake]; exact hposition))
    subst hbefore
    obtain rfl : sample.toList = own := htext
    have hdrop : tail = sample.toList.drop 25 := by
      have honly : ∀ count ≤ sample.toList.length,
          "repeatable".toList <+: sample.toList.drop count → count = 25 := by decide +kernel
      have heq := List.suffix_iff_eq_drop.mp htail
      have hcount := honly _ (Nat.sub_le _ tail.length) (heq ▸ hkeyword.mp hrepeatable)
      rwa [hcount] at heq
    subst hdrop
    exact (hagree (hplace (by decide)) clear_sample).mpr ⟨hrepeatable, by decide +kernel⟩
  · obtain ⟨declarations, definition, hread, hmem, hrepeatable⟩ :=
      Declaration.exists_of_repeatableAt ⟨1, 1⟩
        "directive @a repeatableon FIELD type Query{f:Int}" (by decide +kernel)
    exact ⟨_, declarations, definition, hread, hmem, hrepeatable, by decide +kernel⟩

end QueryAudit
