import QueryAudit.Proofs.Readers
import QueryAudit.Schema.Build

/-!
# Words between places of a text

The scan for repeatable directives takes a text apart into words by rules of its own. Between two
places of a text it keeps in step with the grammar, if what stands between them is clear: comments
there end at a line feed, and quotes open strings that are closed. Then whatever the grammar reads
from the one place to the other is, for the scan, a list of words with balanced parentheses.
-/

namespace QueryAudit.Repeatable

open Grammar

/-! ## Clear text -/

/-- From one place of a text to a later one there are single characters, comments that end at a line
feed, and closed strings and block strings. -/
inductive Clear : List Char → List Char → Prop
  | done (chars : List Char) : Clear chars chars
  | char {c : Char} {rest stop : List Char} (hquote : c ≠ '"') (hhash : c ≠ '#')
      (hrest : Clear rest stop) : Clear (c :: rest) stop
  | comment {body ending rest stop : List Char} (hbody : ∀ c ∈ body, isLineEnd c = false)
      (hending : ending = ['\n'] ∨ ending = ['\r', '\n']) (hrest : Clear rest stop) :
      Clear ('#' :: (body ++ (ending ++ rest))) stop
  | string {inside rest content stop : List Char} (hopen : ¬ ['"', '"'] <+: inside)
      (hbody : stringBody inside = some (content, rest)) (hrest : Clear rest stop) :
      Clear ('"' :: inside) stop
  | block {inside rest raw stop : List Char} (hbody : blockBody inside = some (raw, rest))
      (hrest : Clear rest stop) : Clear ('"' :: '"' :: '"' :: inside) stop

/-! ## One step of the scan -/

theorem words_nil (word : List Char) : words .plain word [] = closeWord word [] := rfl

theorem words_plain {c : Char} {rest : List Char} (h : ¬ ['"', '"', '"'] <+: c :: rest)
    (word : List Char) :
    words .plain word (c :: rest) =
      if isWordChar c then words .plain (word ++ [c]) rest
      else
        closeWord word <|
          if isPassed c then words .plain [] rest
          else if c = '#' then words .comment [] rest
          else if c = '"' then words (.string false) [] rest
          else String.singleton c :: words .plain [] rest := by
  rw [words]
  intro inner hquote hrest
  exact h ⟨inner, by rw [hquote, hrest]; rfl⟩

theorem words_openBlock (word rest : List Char) :
    words .plain word ('"' :: '"' :: '"' :: rest) =
      closeWord word (words (.block false) [] rest) := rfl

theorem words_inComment (c : Char) (rest : List Char) :
    words .comment [] (c :: rest) =
      if c = '\n' then words .plain [] rest else words .comment [] rest := rfl

theorem words_inString (escaped : Bool) (c : Char) (rest : List Char) :
    words (.string escaped) [] (c :: rest) =
      if escaped then words (.string false) [] rest
      else if c = '\\' then words (.string true) [] rest
      else if c = '"' ∨ c = '\n' then words .plain [] rest
      else words (.string false) [] rest := rfl

theorem words_closeBlock (afterBackslash : Bool) (rest : List Char) :
    words (.block afterBackslash) [] ('"' :: '"' :: '"' :: rest) =
      if afterBackslash then words (.block false) [] rest else words .plain [] rest := rfl

theorem words_inBlock {afterBackslash : Bool} {c : Char} {rest : List Char}
    (h : ¬ ['"', '"', '"'] <+: c :: rest) :
    words (.block afterBackslash) [] (c :: rest) = words (.block (c = '\\')) [] rest := by
  rw [words]
  intro inner hquote hrest
  exact h ⟨inner, by rw [hquote, hrest]; rfl⟩

/-! ## Single characters and strings -/

/-- The scan and the grammar make words and names of the same characters. -/
theorem isWordChar_eq_isNameChar (c : Char) : isWordChar c = isNameChar c := by
  have hword : isWordChar c = (c.isUpper || c.isLower || c.isDigit || c == '_') := rfl
  have hupper : c.isUpper = (decide ('A' ≤ c) && decide (c ≤ 'Z')) := Bool.decide_and _ _
  have hlower : c.isLower = (decide ('a' ≤ c) && decide (c ≤ 'z')) := rfl
  have hdigit : c.isDigit = (decide ('0' ≤ c) && decide (c ≤ '9')) := rfl
  rw [hword, hupper, hlower, hdigit]
  simp only [isNameChar, isNameStart, isLetter, isDigit]
  ac_rfl

theorem ne_of_isWordChar {c other : Char} (h : isWordChar c = true)
    (hother : isWordChar other = false) : c ≠ other := by
  rintro rfl
  rw [h] at hother
  cases hother

theorem not_threeQuotes {c : Char} (h : c ≠ '"') (rest : List Char) :
    ¬ ['"', '"', '"'] <+: c :: rest :=
  fun hquotes => h (List.cons_prefix_cons.mp hquotes).1.symm

theorem words_wordChar {c : Char} (h : isWordChar c = true) (word rest : List Char) :
    words .plain word (c :: rest) = words .plain (word ++ [c]) rest := by
  rw [words_plain (not_threeQuotes (ne_of_isWordChar h rfl) rest), if_pos h]

theorem words_passed {c : Char} (h : isPassed c = true) (hword : isWordChar c = false)
    (word rest : List Char) :
    words .plain word (c :: rest) = closeWord word (words .plain [] rest) := by
  have hquote : c ≠ '"' := by
    rintro rfl
    exact absurd h (by decide)
  rw [words_plain (not_threeQuotes hquote rest), if_neg (by simp [hword]), if_pos h]

theorem words_mark {c : Char} (hword : isWordChar c = false) (hpassed : isPassed c = false)
    (hquote : c ≠ '"') (hhash : c ≠ '#') (word rest : List Char) :
    words .plain word (c :: rest) =
      closeWord word (String.singleton c :: words .plain [] rest) := by
  rw [words_plain (not_threeQuotes hquote rest), if_neg (by simp [hword]),
    if_neg (by simp [hpassed]), if_neg hhash, if_neg hquote]

theorem words_quote {inside : List Char} (h : ¬ ['"', '"'] <+: inside) (word : List Char) :
    words .plain word ('"' :: inside) = closeWord word (words (.string false) [] inside) := by
  rw [words_plain fun hquotes => h (List.cons_prefix_cons.mp hquotes).2]
  rfl

theorem words_comment {body ending rest : List Char} (hbody : ∀ c ∈ body, isLineEnd c = false)
    (hending : ending = ['\n'] ∨ ending = ['\r', '\n']) (word : List Char) :
    words .plain word ('#' :: (body ++ (ending ++ rest))) =
      closeWord word (words .plain [] rest) := by
  rw [words_plain (not_threeQuotes (by decide) _)]
  show closeWord word (words .comment [] (body ++ (ending ++ rest))) = _
  congr 1
  induction body with
  | nil => rcases hending with rfl | rfl <;> rfl
  | cons c body ih =>
      have hline : c ≠ '\n' := by
        rintro rfl
        exact absurd (hbody _ List.mem_cons_self) (by decide)
      rw [List.cons_append, words_inComment, if_neg hline]
      exact ih fun other hother => hbody other (List.mem_cons_of_mem _ hother)

theorem words_inString_plain {c : Char} (hbackslash : c ≠ '\\') (hquote : c ≠ '"')
    (hline : c ≠ '\n') (rest : List Char) :
    words (.string false) [] (c :: rest) = words (.string false) [] rest := by
  rw [words_inString]
  simp [hbackslash, hquote, hline]

theorem words_hexDigit {c : Char} {value : Nat} (h : hexValue? c = some value)
    (rest : List Char) : words (.string false) [] (c :: rest) = words (.string false) [] rest := by
  have hother : ∀ mark, hexValue? mark = none → c ≠ mark := by
    rintro mark hmark rfl
    rw [h] at hmark
    cases hmark
  exact words_inString_plain (hother _ rfl) (hother _ rfl) (hother _ rfl) rest

/-- An escaped character does not end a string. -/
theorem words_escape (e : Char) (rest : List Char) :
    words (.string false) [] ('\\' :: e :: rest) = words (.string false) [] rest := rfl

/-- The scan leaves a string where the grammar does. -/
theorem words_stringBody {inside content rest : List Char}
    (h : stringBody inside = some (content, rest)) :
    words (.string false) [] inside = words .plain [] rest := by
  fun_induction stringBody inside generalizing content rest with
  | case1 => cases h
  | case2 rest =>
      cases h
      rfl
  | case3 => cases h
  | case4 => cases h
  | case5 a b c d chars code hcode hvalid ih =>
      obtain ⟨⟨inner, left⟩, hinner, heq⟩ := Option.map_eq_some_iff.mp h
      cases heq
      simp only [hexQuad?, Option.pure_def, Option.bind_eq_bind, Option.bind_eq_some_iff] at hcode
      obtain ⟨_, ha, _, hb, _, hc, _, hd, -⟩ := hcode
      rw [words_escape, words_hexDigit ha, words_hexDigit hb, words_hexDigit hc, words_hexDigit hd,
        ih hinner]
  | case6 => cases h
  | case7 e chars hlong c hescape ih =>
      obtain ⟨⟨inner, left⟩, hinner, heq⟩ := Option.map_eq_some_iff.mp h
      cases heq
      rw [words_escape, ih hinner]
  | case8 => cases h
  | case9 c chars hquote _ _ hplain ih =>
      obtain ⟨⟨inner, left⟩, hinner, heq⟩ := Option.map_eq_some_iff.mp h
      cases heq
      simp only [not_or, isLineEnd, Bool.or_eq_true, beq_iff_eq] at hplain
      rw [words_inString_plain hplain.1 (fun heq => hquote heq) hplain.2.1, ih hinner]

/-- Where three quotes do not follow at once, it makes no difference whether a backslash came. -/
theorem words_block_eq {rest : List Char} (h : ¬ ['"', '"', '"'] <+: rest) (afterBackslash : Bool) :
    words (.block afterBackslash) [] rest = words (.block false) [] rest := by
  cases rest with
  | nil => rfl
  | cons c rest => rw [words_inBlock h, words_inBlock h]

/-- The scan leaves a block string where the grammar does. -/
theorem words_blockBody {inside raw rest : List Char} (h : blockBody inside = some (raw, rest)) :
    words (.block false) [] inside = words .plain [] rest := by
  fun_induction blockBody inside generalizing raw rest with
  | case1 => cases h
  | case2 rest =>
      cases h
      rw [words_closeBlock]
      rfl
  | case3 chars ih =>
      obtain ⟨⟨inner, left⟩, hinner, heq⟩ := Option.map_eq_some_iff.mp h
      cases heq
      rw [words_inBlock (not_threeQuotes (by decide) _), ← ih hinner, words_closeBlock]
      rfl
  | case4 c chars hclose hescape ih =>
      obtain ⟨⟨inner, left⟩, hinner, heq⟩ := Option.map_eq_some_iff.mp h
      cases heq
      have hopen : ¬ ['"', '"', '"'] <+: c :: chars := by
        rintro ⟨more, heq⟩
        simp only [List.cons_append, List.nil_append, List.cons.injEq] at heq
        exact hclose more heq.1.symm heq.2.symm
      rw [words_inBlock hopen, ← ih hinner]
      by_cases hbackslash : c = '\\'
      · apply words_block_eq
        rintro ⟨more, rfl⟩
        exact hescape more hbackslash rfl
      · simp [hbackslash]

/-! ## Words on the way -/

def IsWord (chars : List Char) : Prop := ∀ c ∈ chars, isWordChar c = true

/-- All of some words are made of word characters; none of them is a mark. -/
def Quiet (all : List String) : Prop := ∀ word ∈ all, IsWord word.toList

/-- Inside of parentheses, some words neither open nor close any that they do not close or open
themselves. -/
def Level (all : List String) : Prop :=
  ∀ depth more, afterParens (depth + 1) (all ++ more) = afterParens (depth + 1) more

theorem Quiet.append {first second : List String} (hfirst : Quiet first) (hsecond : Quiet second) :
    Quiet (first ++ second) := by
  intro word hword
  rcases List.mem_append.mp hword with hword | hword
  · exact hfirst word hword
  · exact hsecond word hword

theorem Level.nil : Level [] := fun _ _ => rfl

theorem Level.append {first second : List String} (hfirst : Level first) (hsecond : Level second) :
    Level (first ++ second) := by
  intro depth more
  rw [List.append_assoc, hfirst, hsecond]

theorem Level.singleton {word : String} (hopen : word ≠ "(") (hclose : word ≠ ")") :
    Level [word] := by
  intro depth more
  simp [afterParens, hopen, hclose]

theorem Level.parens {inside : List String} (h : Level inside) :
    Level ("(" :: (inside ++ [")"])) := by
  intro depth more
  rw [List.cons_append, List.append_assoc]
  show afterParens (depth + 1 + 1) (inside ++ ([")"] ++ more)) = _
  rw [h (depth + 1)]
  simp [afterParens]

theorem Quiet.level {all : List String} (h : Quiet all) : Level all := by
  induction all with
  | nil => exact Level.nil
  | cons word rest ih =>
      have hother : ∀ c : Char, isWordChar c = false → word ≠ String.singleton c := by
        rintro c hc rfl
        rw [h _ List.mem_cons_self c (by simp)] at hc
        cases hc
      have hword : Level [word] := Level.singleton (hother '(' rfl) (hother ')' rfl)
      exact hword.append (ih fun other hmem => h other (List.mem_cons_of_mem _ hmem))

theorem closeWord_eq (word : List Char) (more : List String) :
    closeWord word more = closeWord word [] ++ more := by
  unfold closeWord
  split <;> rfl

theorem closeWord_quiet {word : List Char} (h : IsWord word) : Quiet (closeWord word []) := by
  unfold closeWord
  split
  · exact fun _ hmem => absurd hmem List.not_mem_nil
  · intro other hmem
    obtain rfl := List.mem_singleton.mp hmem
    rwa [String.toList_ofList]

/-- From one place of a text to another the scan finds words of a sort, whatever word is being read
at the first. -/
def Passes (sort : List String → Prop) (here there : List Char) : Prop :=
  ∀ word, IsWord word → ∃ found next, sort found ∧ IsWord next ∧
    words .plain word here = found ++ words .plain next there

theorem Passes.mono {sort other : List String → Prop} (h : ∀ found, sort found → other found)
    {here there : List Char} (hpasses : Passes sort here there) : Passes other here there := by
  intro word hword
  obtain ⟨found, next, hfound, hnext, heq⟩ := hpasses word hword
  exact ⟨found, next, h found hfound, hnext, heq⟩

theorem Passes.trans {sort : List String → Prop}
    (happend : ∀ first second, sort first → sort second → sort (first ++ second))
    {here there after : List Char} (hfirst : Passes sort here there)
    (hsecond : Passes sort there after) : Passes sort here after := by
  intro word hword
  obtain ⟨found, next, hfound, hnext, heq⟩ := hfirst word hword
  obtain ⟨more, last, hmore, hlast, hrest⟩ := hsecond next hnext
  refine ⟨found ++ more, last, happend _ _ hfound hmore, hlast, ?_⟩
  rw [heq, hrest, List.append_assoc]

theorem Passes.refl {sort : List String → Prop} (h : sort []) (here : List Char) :
    Passes sort here here :=
  fun word hword => ⟨[], word, h, hword, rfl⟩

theorem quiet_nil : Quiet [] := fun _ hmem => absurd hmem List.not_mem_nil

theorem isWord_nil : IsWord [] := fun _ hmem => absurd hmem List.not_mem_nil

/-- What only ends the word being read. -/
theorem Passes.ofClose {here there : List Char}
    (h : ∀ word, words .plain word here = closeWord word (words .plain [] there)) :
    Passes Quiet here there :=
  fun word hword => ⟨closeWord word [], [], closeWord_quiet hword, isWord_nil,
    by rw [h, closeWord_eq]⟩

theorem Passes.wordChar {c : Char} (h : isWordChar c = true) (rest : List Char) :
    Passes Quiet (c :: rest) rest := by
  intro word hword
  refine ⟨[], word ++ [c], quiet_nil, ?_, words_wordChar h word rest⟩
  intro other hother
  rcases List.mem_append.mp hother with hother | hother
  · exact hword other hother
  · rwa [List.mem_singleton.mp hother]

/-- A mark of one character. -/
theorem words_mark_eq {c : Char} (hword : isWordChar c = false) (hpassed : isPassed c = false)
    (hquote : c ≠ '"') (hhash : c ≠ '#') {word : List Char} (h : IsWord word) (rest : List Char) :
    ∃ found, Quiet found ∧
      words .plain word (c :: rest) = found ++ String.singleton c :: words .plain [] rest :=
  ⟨closeWord word [], closeWord_quiet h, by
    rw [words_mark hword hpassed hquote hhash, closeWord_eq]⟩

theorem Passes.plain {c : Char} (h : isPlain c = true) (rest : List Char) :
    Passes Level (c :: rest) rest := by
  simp only [isPlain, Bool.and_eq_true, bne_iff_ne] at h
  obtain ⟨⟨⟨hopen, hclose⟩, hquote⟩, hhash⟩ := h
  cases hword : isWordChar c with
  | true => exact (Passes.wordChar hword rest).mono fun _ => Quiet.level
  | false =>
      cases hpassed : isPassed c with
      | true => exact (Passes.ofClose (words_passed hpassed hword · rest)).mono fun _ => Quiet.level
      | false =>
          intro word hisWord
          obtain ⟨found, hfound, heq⟩ := words_mark_eq hword hpassed hquote hhash hisWord rest
          have hmark : Level [String.singleton c] :=
            Level.singleton (fun h => hopen (String.singleton_inj.mp h))
              (fun h => hclose (String.singleton_inj.mp h))
          refine ⟨found ++ [String.singleton c], [], hfound.level.append hmark, isWord_nil, ?_⟩
          rw [heq, List.append_assoc]
          rfl

/-! ## In step with the grammar -/

/-- From one place of a text to another, a text that is clear up to a later place has words of a
sort and is clear from there on. -/
def InStep (sort : List String → Prop) (here there : List Char) : Prop :=
  there <:+ here ∧
    ∀ stop, Clear here stop → stop <:+ there → Passes sort here there ∧ Clear there stop

theorem InStep.refl {sort : List String → Prop} (h : sort []) (here : List Char) :
    InStep sort here here :=
  ⟨List.suffix_refl here, fun _ hclear _ => ⟨Passes.refl h here, hclear⟩⟩

theorem InStep.trans {sort : List String → Prop}
    (happend : ∀ first second, sort first → sort second → sort (first ++ second))
    {here there after : List Char} (hfirst : InStep sort here there)
    (hsecond : InStep sort there after) : InStep sort here after := by
  refine ⟨hsecond.1.trans hfirst.1, fun stop hclear hstop => ?_⟩
  obtain ⟨hpasses, hthere⟩ := hfirst.2 stop hclear (hstop.trans hsecond.1)
  obtain ⟨hmore, hafter⟩ := hsecond.2 stop hthere hstop
  exact ⟨hpasses.trans happend hmore, hafter⟩

theorem InStep.level {here there : List Char} (h : InStep Quiet here there) :
    InStep Level here there :=
  ⟨h.1, fun stop hclear hstop =>
    ⟨(h.2 stop hclear hstop).1.mono fun _ => Quiet.level, (h.2 stop hclear hstop).2⟩⟩

theorem not_cons_suffix {c : Char} {rest : List Char} : ¬ c :: rest <:+ rest := by
  intro h
  have hlength := h.length_le
  rw [List.length_cons] at hlength
  omega

/-- After a character that opens nothing, clear text stays clear. -/
theorem Clear.tail {c : Char} {rest stop : List Char} (h : Clear (c :: rest) stop)
    (hstop : stop <:+ rest) (hquote : c ≠ '"') (hhash : c ≠ '#') : Clear rest stop := by
  cases h with
  | done => exact absurd hstop not_cons_suffix
  | char _ _ hrest => exact hrest
  | comment => exact absurd rfl hhash
  | string => exact absurd rfl hquote
  | block => exact absurd rfl hquote

theorem isPassed_of_isIgnored {c : Char} (h : isIgnored c = true) :
    isPassed c = true ∧ isWordChar c = false := by
  simp only [isIgnored, isLineEnd, Bool.or_eq_true, beq_iff_eq] at h
  rcases h with (((rfl | rfl) | rfl) | rfl) | rfl | rfl <;> decide

theorem splitIgnored_comment {body ending : List Char} (hbody : ∀ c ∈ body, isLineEnd c = false)
    (hending : ending = ['\n'] ∨ ending = ['\r', '\n']) (rest : List Char) :
    (splitIgnored false ('#' :: (body ++ (ending ++ rest)))).2 = (splitIgnored false rest).2 := by
  have hinside : (splitIgnored true (body ++ (ending ++ rest))).2 =
      (splitIgnored false rest).2 := by
    induction body with
    | nil => rcases hending with rfl | rfl <;> rfl
    | cons c body ih =>
        rw [← ih fun other hother => hbody other (List.mem_cons_of_mem _ hother)]
        simp [splitIgnored, hbody c List.mem_cons_self]
  rw [← hinside]
  rfl

theorem words_nil_ignored {here taken there : List Char}
    (h : splitIgnored false here = (taken, there))
    (hwords : taken ≠ [] → ∀ word,
      words .plain word here = closeWord word (words .plain [] there)) :
    words .plain [] here = words .plain [] there := by
  by_cases htaken : taken = []
  · subst htaken
    rw [show here = there from splitIgnored_append h]
  · rw [hwords htaken []]
    rfl

/-- What is ignored ends the word being read, if there is anything ignored. -/
theorem words_ignored {here taken there stop : List Char}
    (h : splitIgnored false here = (taken, there)) (hclear : Clear here stop)
    (hstop : stop <:+ there) :
    (taken ≠ [] → ∀ word, words .plain word here = closeWord word (words .plain [] there)) ∧
      Clear there stop := by
  induction hclear generalizing taken with
  | done chars =>
      have heq : there = chars :=
        List.IsSuffix.eq_of_length_le ⟨taken, (splitIgnored_append h).symm⟩ hstop.length_le
      have htaken : taken = [] := List.append_left_eq_self.mp (heq ▸ (splitIgnored_append h).symm)
      subst heq
      exact ⟨fun hne => absurd htaken hne, .done there⟩
  | @char c rest stop hquote hhash hrest ih =>
      cases hignored : isIgnored c with
      | true =>
          have hpassed := isPassed_of_isIgnored hignored
          have hsplit : splitIgnored false (c :: rest) =
              (c :: (splitIgnored false rest).1, (splitIgnored false rest).2) := by
            simp [splitIgnored, hignored]
          rw [hsplit] at h
          cases h
          obtain ⟨hmore, hclear⟩ := ih rfl hstop
          refine ⟨fun _ word => ?_, hclear⟩
          rw [words_passed hpassed.1 hpassed.2, words_nil_ignored rfl hmore]
      | false =>
          have hsplit : splitIgnored false (c :: rest) = ([], c :: rest) := by
            simp [splitIgnored, hignored, hhash]
          rw [hsplit] at h
          cases h
          exact ⟨fun hne => absurd rfl hne, .char hquote hhash hrest⟩
  | @comment body ending rest stop hbody hending hrest ih =>
      have hsplit := splitIgnored_comment hbody hending rest
      rw [h] at hsplit
      dsimp only at hsplit
      subst hsplit
      obtain ⟨hmore, hclear⟩ := ih rfl hstop
      refine ⟨fun _ word => ?_, hclear⟩
      rw [words_comment hbody hending, words_nil_ignored rfl hmore]
  | @string inside rest content stop hopen hbody hrest ih =>
      cases h
      exact ⟨fun hne => absurd rfl hne, .string hopen hbody hrest⟩
  | @block inside rest raw stop hbody hrest ih =>
      cases h
      exact ⟨fun hne => absurd rfl hne, .block hbody hrest⟩

theorem inStep_ignored {here taken there : List Char}
    (h : splitIgnored false here = (taken, there)) : InStep Quiet here there := by
  refine ⟨⟨taken, (splitIgnored_append h).symm⟩, fun stop hclear hstop => ?_⟩
  obtain ⟨hwords, hthere⟩ := words_ignored h hclear hstop
  refine ⟨?_, hthere⟩
  by_cases htaken : taken = []
  · subst htaken
    rw [show here = there from splitIgnored_append h]
    exact Passes.refl quiet_nil there
  · exact Passes.ofClose (hwords htaken)

/-- Characters that open nothing and each keep to a sort that can be put together. -/
theorem inStep_chars {sort : List String → Prop} (hnil : sort [])
    (happend : ∀ first second, sort first → sort second → sort (first ++ second))
    {taken : List Char} (hopen : ∀ c ∈ taken, c ≠ '"' ∧ c ≠ '#')
    (hpasses : ∀ c ∈ taken, ∀ rest, Passes sort (c :: rest) rest) (rest : List Char) :
    InStep sort (taken ++ rest) rest := by
  induction taken with
  | nil => exact InStep.refl hnil rest
  | cons c taken ih =>
      obtain ⟨hquote, hhash⟩ := hopen c List.mem_cons_self
      have hfirst : InStep sort (c :: (taken ++ rest)) (taken ++ rest) :=
        ⟨List.suffix_cons c _, fun stop hclear hstop =>
          ⟨hpasses c List.mem_cons_self _, hclear.tail hstop hquote hhash⟩⟩
      apply hfirst.trans happend
      exact ih (fun other hother => hopen other (List.mem_cons_of_mem _ hother))
        fun other hother => hpasses other (List.mem_cons_of_mem _ hother)

theorem inStep_plain {taken : List Char} (h : ∀ c ∈ taken, isPlain c = true) (rest : List Char) :
    InStep Level (taken ++ rest) rest := by
  refine inStep_chars Level.nil (fun _ _ => Level.append) (fun c hc => ?_)
    (fun c hc => Passes.plain (h c hc)) rest
  have hplain := h c hc
  simp only [isPlain, Bool.and_eq_true, bne_iff_ne] at hplain
  exact ⟨hplain.1.2, hplain.2⟩

theorem inStep_isWord {taken : List Char} (h : IsWord taken) (rest : List Char) :
    InStep Quiet (taken ++ rest) rest := by
  refine inStep_chars quiet_nil (fun _ _ => Quiet.append) (fun c hc => ?_)
    (fun c hc => Passes.wordChar (h c hc)) rest
  exact ⟨ne_of_isWordChar (h c hc) rfl, ne_of_isWordChar (h c hc) rfl⟩

theorem inStep_string {here rest : List Char} {content : String}
    (h : stringScan here = some (content, rest)) : InStep Quiet here rest := by
  obtain ⟨taken, htaken, heq⟩ := stringScan_suffix h
  refine ⟨⟨taken, heq.symm⟩, fun stop hclear hstop => ?_⟩
  cases hclear with
  | done =>
      have hlength := hstop.length_le
      have hpositive := List.length_pos_iff.mpr htaken
      rw [heq, List.length_append] at hlength
      omega
  | @char c chars _ hquote hhash hrest =>
      have hnone : stringScan (c :: chars) = none := by
        rw [stringScan]
        · intro inner heq
          exact absurd (List.cons.inj heq).1 hquote
        · intro inner heq
          exact absurd (List.cons.inj heq).1 hquote
      rw [hnone] at h
      cases h
  | comment => cases h
  | @string inside left body _ hopen hbody hrest =>
      have hscan : stringScan ('"' :: inside) = some (String.ofList body, left) := by
        rw [stringScan, hbody]
        · rfl
        · rintro inner rfl
          exact hopen ⟨inner, rfl⟩
      rw [hscan] at h
      cases h
      refine ⟨Passes.ofClose fun word => ?_, hrest⟩
      rw [words_quote hopen, words_stringBody hbody]
  | @block inside left raw _ hbody hrest =>
      rw [stringScan, hbody] at h
      cases h
      refine ⟨Passes.ofClose fun word => ?_, hrest⟩
      rw [words_openBlock, words_blockBody hbody]

/-- Reading keeps in step with the scan. -/
instance : Passage fun cursor later => InStep Level cursor.rest later.rest where
  refl cursor := InStep.refl Level.nil cursor.rest
  trans hfirst hsecond := hfirst.trans (fun _ _ => Level.append) hsecond
  blame cursor _ := InStep.refl Level.nil cursor.rest
  ignored _ _ _ h := (inStep_ignored h).level
  plain cursor taken rest heq h := by
    rw [heq]
    exact inStep_plain h rest
  string _ _ _ _ _ h := (inStep_string h).level
  parens := by
    intro cursor inside last rest hopen hinside hclose
    have hlast : last.rest <:+ inside := hinside.1
    rw [hclose] at hlast
    rw [hopen]
    refine ⟨((List.suffix_cons _ _).trans hlast).trans (List.suffix_cons _ _), ?_⟩
    intro stop hclear hstop
    have hstopClose : stop <:+ ')' :: rest := hstop.trans (List.suffix_cons _ _)
    have hstopInside : stop <:+ inside := hstopClose.trans hlast
    have hclearInside := hclear.tail hstopInside (by decide) (by decide)
    obtain ⟨hpasses, hclearClose⟩ := hinside.2 stop hclearInside (hclose ▸ hstopClose)
    rw [hclose] at hpasses hclearClose
    refine ⟨fun word hword => ?_, hclearClose.tail hstop (by decide) (by decide)⟩
    obtain ⟨before, hbefore, hopened⟩ :=
      words_mark_eq (c := '(') rfl rfl (by decide) (by decide) hword inside
    obtain ⟨found, next, hfound, hnext, hpassed⟩ := hpasses [] isWord_nil
    obtain ⟨after, hafter, hclosed⟩ :=
      words_mark_eq (c := ')') rfl rfl (by decide) (by decide) hnext rest
    refine ⟨before ++ "(" :: ((found ++ after) ++ [")"]), [],
      hbefore.level.append (hfound.append hafter.level).parens, isWord_nil, ?_⟩
    have hpassed' : words .plain [] inside = found ++ words .plain next (')' :: rest) := hpassed
    rw [hopened, hpassed', hclosed]
    simp only [List.append_assoc, List.cons_append, List.nil_append]
    rfl

end QueryAudit.Repeatable
