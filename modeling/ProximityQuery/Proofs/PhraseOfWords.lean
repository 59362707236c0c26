import ProximityQuery.Proofs.PhraseShape
import ProximityQuery.Proofs.Placeholders
import ProximityQuery.Proofs.SpelledLevel

/-!
# Phrases of words

A phrase of words, some of them with a minus, becomes a positional query of these words and of
nothing else. The words are written in escapes, so they may hold any characters: neither the reading
of the query nor that of the phrase takes a part of one for anything but a word.
-/

namespace ProximityQuery

open Grammar

/-- A word of a phrase, and whether a minus stands before it. -/
structure SignedWord where
  negated : Bool
  word : Word

namespace SignedWord

/-- The word as it is written, every character with a backslash before it. -/
def text (w : SignedWord) : List Char :=
  if w.negated then '-' :: escaped w.word else escaped w.word

/-- The clause of the word in a field. -/
def leaf (field : String) (w : SignedWord) : Positional :=
  .term { field, text := w.word }

/-- The sign that the minus is. -/
def modifier (w : SignedWord) : Option Modifier :=
  if w.negated then some .prohibited else none

/-- The part that the word plays in its phrase. -/
def occur (op : Operator) (w : SignedWord) : Occur :=
  (markOf false w.modifier).occur op

/-- The word as the clause of a level about a field. -/
def item (field : String) (w : SignedWord) : Item Expression where
  mark := markOf false w.modifier
  clause := .term field w.word

/-- A word is written with its sign before it and all its characters escaped. -/
theorem text_eq (w : SignedWord) :
    w.text = joinText false ++ signText w.modifier ++ escaped w.word := by
  rw [text, modifier]
  cases w.negated <;> rfl

/-- Under either operator just the words with a minus are prohibited. -/
theorem isProhibited_occur (op : Operator) (w : SignedWord) :
    (w.occur op).isProhibited = w.negated := by
  rw [occur, modifier]
  cases w.negated <;> cases op <;> rfl

end SignedWord

/-- The words of a phrase with single blanks between them. -/
def rawOfWords (words : List SignedWord) : List Char :=
  [' '].intercalate (words.map SignedWord.text)

/-- The text `field:"words"~slop`. -/
def phraseText (field : Word) (words : List SignedWord) (slop : UInt32) : String :=
  String.ofList
    (escaped field ++ ':' :: '"' :: (rawOfWords words ++ '"' :: '~' :: numeral slop))

/-- Two paired texts in a row are paired. -/
theorem Paired.append {s t : List Char} (hs : Paired s) (ht : Paired t) : Paired (s ++ t) := by
  induction hs with
  | nil => exact ht
  | plain hc _ ih => exact .plain hc ih
  | escaped _ ih => exact .escaped ih

/-- A text in escapes can stand between quotes, whatever quotes and backslashes it holds. -/
theorem paired_escaped (text : String) : Paired (escaped text) := by
  rw [escaped]
  induction text.toList with
  | nil => exact .nil
  | cons c s ih => exact .escaped ih

/-- A word as it is written is paired, all of its characters being escaped. -/
theorem SignedWord.paired_text (w : SignedWord) : Paired w.text := by
  have hword := paired_escaped w.word
  rw [text]
  split
  · exact .plain rfl hword
  · exact hword

/-- So can the words of a phrase. -/
theorem paired_rawOfWords (words : List SignedWord) : Paired (rawOfWords words) := by
  have htail : Paired ((words.tail.map SignedWord.text).flatMap (' ' :: ·)) := by
    induction words.tail with
    | nil => exact .nil
    | cons w rest ih =>
      have hw : Paired (' ' :: w.text) := .plain rfl w.paired_text
      exact hw.append ih
  cases words with
  | nil => exact .nil
  | cons w rest =>
    have hsplit : rawOfWords (w :: rest) =
        w.text ++ (rest.map SignedWord.text).flatMap (' ' :: ·) := intercalate_blank _ _
    rw [hsplit]
    exact w.paired_text.append htail

/-- The first reading finds one phrase and nothing else, under the given field. -/
theorem ofText?_phraseText (d : Dialect) (defaultField : String) (field : Word)
    (words : List SignedWord) (slop : UInt32) :
    Expression.ofText? d defaultField (phraseText field words slop) =
      .ok (.phrase field (String.ofList (rawOfWords words)) slop) := by
  have hphrase := spellsStart_phrase d 127 defaultField field (paired_rawOfWords words) slop
  have hlimit : nestingLimit = 127 + 1 := rfl
  rw [← hlimit] at hphrase
  exact hphrase.spellsClause.ofText?

/-- The second reading finds the words, one clause for each. -/
theorem ofText?_rawOfWords (d : Dialect) (field : String) (words : List SignedWord) :
    Expression.ofText? d field (String.ofList (rawOfWords words)) =
      .ok (levelOf d.operator (words.map (SignedWord.item field))) := by
  have hitem : ∀ w : SignedWord,
      SpellsItem (readPrimary Expression.builder d nestingLimit) field w.text (w.item field) := by
    intro w
    have hword := spellsStart_word d nestingLimit field w.word
    rw [w.text_eq]
    exact hword.spellsClause.spellsItem false w.modifier
  have hitems : List.Forall₂ (SpellsItem (readPrimary Expression.builder d nestingLimit) field)
      (words.map SignedWord.text) (words.map (SignedWord.item field)) := by
    rw [List.forall₂_map_left_iff, List.forall₂_map_right_iff, List.forall₂_same]
    exact fun w _ => hitem w
  exact Expression.ofText?_intercalate hitems

/-- Two or more words, or a word with a minus, make a boolean combination of the words. -/
theorem levelOf_words (op : Operator) (field : String) {words : List SignedWord}
    (h : ∀ word, words ≠ [{ negated := false, word }]) :
    levelOf op (words.map (SignedWord.item field)) =
      .boolean (words.map fun w => (.term field w.word, w.occur op)) := by
  refine levelOf_map op (fun w : SignedWord => markOf false w.modifier)
    (fun w => .term field w.word) ?_ ?_
  · rintro ⟨negated, word⟩ hwords
    cases negated with
    | false => exact absurd hwords (h word)
    | true => rfl
  · -- there are no conjunctions, so no word changes the part of the word before it
    exact fun w _ o => rfl

/-- The words of a phrase as the clauses of its tree. -/
def clausesOfWords (op : Operator) (field : String) (words : List SignedWord) :
    List (ClauseTree × Occur) :=
  words.map fun w => (.term { field, text := w.word }, w.occur op)

section

variable (p : Parser) {a : Anchor} {words : List SignedWord}
  (hraw : a.rawText = String.ofList (rawOfWords words))

include hraw

/-- The phrase of one word without a minus is that word. -/
theorem treeOf_word {word : Word} (hwords : words = [{ negated := false, word }]) :
    p.treeOf a = .ok (.term { field := a.field, text := word }) := by
  have htext := ofText?_rawOfWords p.config.dialect a.field words
  rw [hwords, List.map_singleton, levelOf_bare _ rfl, ← hwords, ← hraw] at htext
  have hcalls := Expression.callsOfText_eq_calls htext
  refine (p.treeOf_eq_ok_iff a _).mpr ⟨?_, _, htext, rfl⟩
  rw [hcalls]
  intro c hc
  obtain rfl := List.mem_singleton.mp hc
  exact if_pos rfl

/-- Any other phrase is the combination of its words. -/
theorem treeOf_words (hwords : ∀ word, words ≠ [{ negated := false, word }]) :
    p.treeOf a = .ok (.composite (clausesOfWords p.config.defaultOperator a.field words)) := by
  have htext := ofText?_rawOfWords p.config.dialect a.field words
  rw [levelOf_words _ _ hwords, ← hraw] at htext
  have hcalls := Expression.callsOfText_eq_calls htext
  refine (p.treeOf_eq_ok_iff a _).mpr ⟨?_, _, htext, ?_⟩
  · rw [hcalls, Expression.calls, Expression.callsOfClauses_eq_flatMap]
    intro c hc
    rcases List.mem_append.mp hc with hword | hlevel
    · obtain ⟨⟨clause, occur⟩, hmem, hclause⟩ := List.mem_flatMap.mp hword
      obtain ⟨w, -, heq⟩ := List.mem_map.mp hmem
      obtain ⟨rfl, -⟩ := Prod.mk.inj heq
      obtain rfl := List.mem_singleton.mp hclause
      exact if_pos rfl
    · obtain rfl := List.mem_singleton.mp hlevel
      rfl
  · have htree : ∀ clauses : List (Expression × Occur),
        (Expression.boolean clauses).phraseTree p.dictionary =
          .composite (clauses.map fun c => (c.1.tree p.dictionary, c.2)) := by
      intro clauses
      rw [← Expression.treesOfClauses_eq_map]
      rfl
    rw [htree, List.map_map]
    rfl

end

/-- A query that is one phrase is parsed as what the tree of the phrase is rewritten to. -/
theorem Parser.parse_eq_of_phrase {p : Parser} {text : String} {a : Anchor} {tree : ClauseTree}
    (ha : a = { field := a.field, rawText := a.rawText, slop := a.slop,
                inOrder := p.config.inOrder })
    (htext : Expression.ofText? p.config.dialect p.config.defaultField text =
      .ok (.phrase a.field a.rawText a.slop))
    (htree : p.treeOf a = .ok tree) :
    p.parse text = .ok ((p.rewriterOf a).rewrite tree) := by
  have hcapture : p.capture text = .ok (.phrase 0, ⟨[a]⟩) := by
    rw [ha]
    exact p.capture_eq_ok_iff.mpr ⟨_, htext, rfl, rfl⟩
  have hfresh : a.resolved = none := by rw [ha]
  have hresolve : p.resolve ⟨[a]⟩ = (.ok 1, ⟨[{ a with resolved := some tree }]⟩) := by
    simp only [resolve, Anchor.resolveAll, hfresh, htree]
    rfl
  rw [parse, hcapture, ok_bind]
  simp only [hresolve]
  rfl

section

variable (r : Rewriter) (op : Operator) (field : String) (words : List SignedWord)

/-- The words have their terms for slots, and those without a minus are kept. -/
theorem sequence_words_eq_assemble (hfactory : r.factory = Positional.plainTerm) :
    r.sequence (clausesOfWords op field words) =
      r.assemble (words.map (SignedWord.leaf field))
        ((words.filter fun w => !w.negated).map (SignedWord.leaf field))
        (words.countP SignedWord.negated) := by
  have hleaf : ∀ w : SignedWord,
      r.position (.term { field, text := w.word }) = w.leaf field := by
    intro w
    rw [Rewriter.position, hfactory]
    rfl
  simp only [Rewriter.sequence_eq_assemble, clausesOfWords, List.map_map, List.filter_map,
    List.countP_map, Function.comp_def, SignedWord.isProhibited_occur, hleaf]

variable {r words}

/-- Without a minus the words are matched near one another. -/
theorem sequence_words_of_allowed (hfactory : r.factory = Positional.plainTerm)
    (h : words.countP SignedWord.negated = 0) :
    r.sequence (clausesOfWords op field words) =
      .near (words.map (SignedWord.leaf field)) r.slop r.inOrder := by
  rw [sequence_words_eq_assemble r op field words hfactory, h, r.assemble_of_none_prohibited]

/-- One word without a minus among others with one is matched except where all of them match. -/
theorem sequence_words_of_single (hfactory : r.factory = Positional.plainTerm)
    (h : words.countP SignedWord.negated ≠ 0) {only : Positional}
    (honly : (words.filter fun w => !w.negated).map (SignedWord.leaf field) = [only]) :
    r.sequence (clausesOfWords op field words) =
      .not only (.near (words.map (SignedWord.leaf field)) r.slop r.inOrder) := by
  rw [sequence_words_eq_assemble r op field words hfactory, honly, r.assemble_of_one_kept _ _ h]

/-- Any other number of words without a minus is matched near one another, with more positions
between them, except where all of the words match. -/
theorem sequence_words_of_many (hfactory : r.factory = Positional.plainTerm)
    (h : words.countP SignedWord.negated ≠ 0) {kept : List Positional}
    (hkept : (words.filter fun w => !w.negated).map (SignedWord.leaf field) = kept)
    (hlength : kept.length ≠ 1) :
    r.sequence (clausesOfWords op field words) =
      .not (.near kept (Rewriter.addSlop r.slop (words.countP SignedWord.negated)) r.inOrder)
        (.near (words.map (SignedWord.leaf field)) r.slop r.inOrder) := by
  rw [sequence_words_eq_assemble r op field words hfactory, hkept,
    r.assemble_of_some_kept _ h hlength]

end

/-- A phrase of two words or more, or of one word with a minus, matches the sequence its words make,
whatever the dictionary. -/
theorem parse_phraseText_eq_sequence (config : Config) (regex : Regex.Compiler)
    (dictionary : Dictionary) (field : Word) {words : List SignedWord} (slop : UInt32)
    (h : ∀ word, words ≠ [{ negated := false, word }]) :
    ({ config, regex, dictionary } : Parser).parse (phraseText field words slop) =
      .ok (.positional (Rewriter.sequence
        { field := field, slop, inOrder := config.inOrder, factory := Positional.plainTerm }
        (clausesOfWords config.defaultOperator field words))) := by
  have htext := ofText?_phraseText config.dialect config.defaultField field words slop
  have htree := treeOf_words { config, regex, dictionary }
    (a := { field := field, rawText := String.ofList (rawOfWords words), slop,
            inOrder := config.inOrder }) rfl h
  have hparse := Parser.parse_eq_of_phrase (p := { config, regex, dictionary }) rfl htext htree
  exact hparse

/-- The phrase law. A phrase of one word without a minus is parsed as that word. Any other phrase
without a minus is its words near one another, with the given slop and in the configured order.
Where some words have a minus, the phrase is what remains without them, one word by itself and
otherwise the words near one another with as many more positions between them, except where the
sequence of all words matches. -/
theorem parse_phraseText (config : Config) (regex : Regex.Compiler) (dictionary : Dictionary)
    (field : Word) (words : List SignedWord) (slop : UInt32) :
    let parsed := ({ config, regex, dictionary } : Parser).parse (phraseText field words slop)
    let leaves := words.map (SignedWord.leaf field)
    let kept := (words.filter fun w => !w.negated).map (SignedWord.leaf field)
    let negations := words.countP SignedWord.negated
    let whole : Positional := .near leaves slop config.inOrder
    (∀ word, words = [{ negated := false, word }] →
      parsed = .ok (.term { field := field, text := word })) ∧
    (2 ≤ words.length → negations = 0 → parsed = .ok (.positional whole)) ∧
    (negations ≠ 0 → ∀ only, kept = [only] → parsed = .ok (.positional (.not only whole))) ∧
    (negations ≠ 0 → kept.length ≠ 1 →
      parsed = .ok (.positional (.not
        (.near kept (UInt32.ofNat (min (slop.toNat + negations) (2 ^ 32 - 1))) config.inOrder)
        whole))) := by
  intro parsed leaves kept negations whole
  have hnegated : negations ≠ 0 → ∀ word, words ≠ [{ negated := false, word }] := by
    intro hne word hwords
    exact hne (by simp [negations, hwords])
  have hsequence (hmany : ∀ word, words ≠ [{ negated := false, word }]) :=
    parse_phraseText_eq_sequence config regex dictionary field slop hmany
  refine ⟨?_, ?_, ?_, ?_⟩
  · intro word hwords
    have htext := ofText?_phraseText config.dialect config.defaultField field words slop
    have htree := treeOf_word { config, regex, dictionary }
      (a := { field := field, rawText := String.ofList (rawOfWords words), slop,
              inOrder := config.inOrder }) rfl hwords
    exact Parser.parse_eq_of_phrase (p := { config, regex, dictionary }) rfl htext htree
  · intro hlength hzero
    have hmany : ∀ word, words ≠ [{ negated := false, word }] := by
      intro word hwords
      simp [hwords] at hlength
    have hparsed := hsequence hmany
    rw [sequence_words_of_allowed _ _ rfl hzero] at hparsed
    exact hparsed
  · intro hne only honly
    have hparsed := hsequence (hnegated hne)
    rw [sequence_words_of_single _ _ rfl hne honly] at hparsed
    exact hparsed
  · intro hne hlength
    have hparsed := hsequence (hnegated hne)
    rw [sequence_words_of_many _ _ rfl hne rfl hlength] at hparsed
    exact hparsed

/-- Words that look like a keyword, a sign or a quote are words all the same, and the largest slop
stays what it is. -/
theorem phrase_law_of_keyword :
    let field : Word := ⟨"body", by decide⟩
    let keyword : SignedWord := { negated := false, word := ⟨"AND", by decide⟩ }
    let quote : SignedWord := { negated := true, word := ⟨"+a \"b", by decide⟩ }
    ({} : Parser).parse "\\b\\o\\d\\y:\"\\A\\N\\D\"~4294967295" =
      .ok (.term { field := "body", text := "AND" }) ∧
    ({} : Parser).parse (phraseText field [keyword, keyword] 4294967295) =
      .ok (.positional (.near [keyword.leaf "body", keyword.leaf "body"] 4294967295 true)) ∧
    ({} : Parser).parse (phraseText field [keyword, quote] 4294967295) =
      .ok (.positional (.not (keyword.leaf "body")
        (.near [keyword.leaf "body", quote.leaf "body"] 4294967295 true))) ∧
    ({} : Parser).parse (phraseText field [keyword, quote, keyword] 4294967295) =
      .ok (.positional (.not
        (.near [keyword.leaf "body", keyword.leaf "body"] 4294967295 true)
        (.near [keyword.leaf "body", quote.leaf "body", keyword.leaf "body"] 4294967295
          true))) := by
  intro field keyword quote
  have htext : "\\b\\o\\d\\y:\"\\A\\N\\D\"~4294967295" =
      phraseText field [keyword] 4294967295 := by
    decide
  rw [htext]
  exact ⟨(parse_phraseText {} {} .empty field [keyword] 4294967295).1 _ rfl,
    (parse_phraseText {} {} .empty field [keyword, keyword] 4294967295).2.1 (by decide) rfl,
    (parse_phraseText {} {} .empty field [keyword, quote] 4294967295).2.2.1 (by decide) _ rfl,
    (parse_phraseText {} {} .empty field [keyword, quote, keyword] 4294967295).2.2.2 (by decide)
      (by decide)⟩

end ProximityQuery
