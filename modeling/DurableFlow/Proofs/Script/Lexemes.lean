/-
The words of a script, one by one.

Names, literals and operators are what the grammar reads without looking inside. Each
of them is read up to what follows it, provided that this does not go on with it, and
a text that starts otherwise is refused. Keywords are no names, and a name that begins
like a keyword is one.
-/
import DurableFlow.Proofs.Data.Members
import DurableFlow.Proofs.Script.Rendering
import DurableFlow.Proofs.Text.Reading

set_option autoImplicit false

namespace DurableFlow.Script

open Text Text.Peg Grammar
open scoped Members

/-! ## The language -/

/-- The grammar of scripts with the parts that its trees stand for. -/
def language : Language Rule ParseError Part where
  grammar := grammar
  leaf rule span text :=
    match Part.ofLeaf rule span text with
    | some part => .ok part
    | none => .error (.malformed span)
  node rule span parts :=
    match Part.ofNode rule span parts with
    | some part => .ok part
    | none => .error (.malformed span)

theorem ofTree_eq (tree : Peg.Tree Rule) : Part.ofTree tree = tree.fold language.leaf language.node := rfl

/-- The rules that may match nothing. -/
def Rule.mayBeEmpty : Rule → Bool
  | .program => true
  | .endOfInput => true
  | .doubleQuoted => true
  | .singleQuoted => true
  | _ => false

/-- How many expressions are entered in a rule before something is consumed. -/
def Rule.rank : Rule → Nat
  | .program => 60
  | .statement => 55
  | .exprStmt => 50
  | .argList => 50
  | .expression => 48
  | .orExpr => 46
  | .andExpr => 44
  | .equalityExpr => 42
  | .comparisonExpr => 40
  | .additiveExpr => 38
  | .multiplicativeExpr => 36
  | .unaryExpr => 34
  | .primary => 30
  | .callExpr => 22
  | .assignStmt => 22
  | .identifier => 20
  | .keyword => 16
  | .literal => 8
  | _ => 4

/-- **Every script has enough fuel**: the rules keep to a limit far below the one of the parser. -/
def measured : grammar.Measured where
  empty := Rule.mayBeEmpty
  rank := Rule.rank
  blanks := 8
  limit := 64
  empty_of_body name := by cases name <;> decide
  depth_body name := by cases name <;> decide
  body_within name := by cases name <;> decide
  blanks_within := by decide
  depth_blanks := by decide
  blanks_lt := by decide

/-- An expression of the grammar reads a text up to a rest, blanks being skipped between its parts. -/
abbrev Reads (exp : Exp Rule) (cs rest : List Char) (P : List Part → Prop) : Prop :=
  language.Reads .spaced exp cs rest P

abbrev Refuses (exp : Exp Rule) (cs : List Char) : Prop := language.Refuses .spaced exp cs

abbrev Skips (cs rest : List Char) : Prop := language.Skips .spaced cs rest

variable {mode : Mode} {cs mid rest : List Char} {P Q : List Part → Prop}

theorem leaf_eq_ok {rule : Rule} {span : Span} {text : String} {part : Part}
    (h : Part.ofLeaf rule span text = some part) : language.leaf rule span text = .ok part := by
  simp only [language, h]

theorem node_eq_ok {rule : Rule} {span : Span} {parts : List Part} {part : Part}
    (h : Part.ofNode rule span parts = some part) : language.node rule span parts = .ok part := by
  simp only [language, h]

/-! ## Choices -/

theorem alts_cons {e : Exp Rule} {es : List (Exp Rule)} (h : es ≠ []) :
    alts (e :: es) = .alt e (alts es) := by
  obtain _ | ⟨f, fs⟩ := es
  · exact absurd rfl h
  · rfl

/-- The first alternative that is not refused is read. -/
theorem reads_alts (before : List (Exp Rule)) {after : List (Exp Rule)} {e : Exp Rule}
    (hbefore : ∀ b ∈ before, language.Refuses mode b cs) (h : language.Reads mode e cs rest P) :
    language.Reads mode (alts (before ++ e :: after)) cs rest P := by
  induction before with
  | nil =>
    obtain _ | ⟨f, fs⟩ := after
    · exact h
    · exact .alt_left h
  | cons b before ih =>
    rw [List.cons_append, alts_cons (by simp)]
    refine .alt_right (hbefore b List.mem_cons_self) (ih fun c hc => ?_)
    exact hbefore c (List.mem_cons_of_mem b hc)

theorem refuses_alts {es : List (Exp Rule)} (h : ∀ e ∈ es, language.Refuses mode e cs) :
    language.Refuses mode (alts es) cs := by
  induction es with
  | nil => exact .char fun _ _ => rfl
  | cons e es ih =>
    have htail := ih fun f hf => h f (List.mem_cons_of_mem e hf)
    obtain _ | ⟨f, fs⟩ := es
    · exact h e List.mem_cons_self
    · exact .alt (h e List.mem_cons_self) htail

/-! ## Blanks -/

/-- Whether a text starts with neither a blank nor a comment. -/
def Stands (cs : List Char) : Prop :=
  (∀ c ∈ cs.head?, isBlank c = false) ∧ ¬ "//".toList <+: cs ∧ ¬ "/*".toList <+: cs

theorem refuses_word {w : String} (h : ¬ w.toList <+: cs) : language.Refuses mode (word w) cs := .text h

theorem reads_word (w : String) (rest : List Char) :
    language.Reads mode (word w) (w.toList ++ rest) rest Silent := .text _ rest

/-- Blanks in front of what stands are skipped. -/
theorem skips_blanks (gap : List Char) (hgap : ∀ c ∈ gap, isBlank c = true) (h : Stands cs) :
    Skips (gap ++ cs) cs := by
  obtain ⟨hblank, hline, hblock⟩ := h
  have hspace : language.Reads .atomic (.many (.char isBlank)) (gap ++ cs) cs Silent := .chars hgap hblank
  have hcomment : language.Refuses .atomic
      (.seq (.alt (.seq (word "//") (.many (.char fun c => c ≠ '\n')))
        (seqs [word "/*", .many (.seq (.without (word "*/")) (.char fun _ => true)), word "*/"]))
        (.many (.char isBlank))) cs :=
    .seq_left (.alt (.seq_left (refuses_word hline)) (.seq_left (refuses_word hblock)))
  exact .of_blanks (.silent_seq hspace (.of_atomic cs) (.many_none hcomment))

theorem skips_none (h : Stands cs) : Skips cs cs := skips_blanks [] (by simp) h

theorem skips_blank (h : Stands cs) : Skips (' ' :: cs) cs :=
  skips_blanks [' '] (by simp [isBlank]) h

/-- What starts with a character that is neither a blank nor a slash stands. -/
theorem stands_cons {c : Char} (hblank : isBlank c = false) (hslash : c ≠ '/') : Stands (c :: rest) := by
  refine ⟨fun d hd => ?_, fun h => ?_, fun h => ?_⟩
  · rw [← Option.some.inj hd]
    exact hblank
  · exact hslash ((List.cons_prefix_cons.mp h).1.symm)
  · exact hslash ((List.cons_prefix_cons.mp h).1.symm)

theorem stands_nil : Stands [] := ⟨by simp, by simp, by simp⟩

/-! ## Whole words -/

/-- Whether no name goes on at the start of a text. -/
def Parts (cs : List Char) : Prop := ∀ c ∈ cs.head?, isNameChar c = false

theorem parts_cons {c : Char} (h : isNameChar c = false) : Parts (c :: rest) := by
  intro d hd
  rw [← Option.some.inj hd]
  exact h

/-- Of some words the first is read that a text starts with. -/
theorem reads_words {words : List String} (h : ∃ w ∈ words, w.toList <+: cs) :
    ∃ w ∈ words, ∃ rest, cs = w.toList ++ rest ∧
      language.Reads mode (alts (words.map word)) cs rest Silent := by
  obtain ⟨w, hfind⟩ : ∃ w, words.find? (fun w => w.toList.isPrefixOf cs) = some w := by
    rw [← Option.isSome_iff_exists, List.find?_isSome]
    obtain ⟨w, hw, hstart⟩ := h
    exact ⟨w, hw, List.isPrefixOf_iff_prefix.mpr hstart⟩
  obtain ⟨hstart, before, after, rfl, hbefore⟩ := List.find?_eq_some_iff_append.mp hfind
  obtain ⟨rest, rfl⟩ := List.isPrefixOf_iff_prefix.mp hstart
  refine ⟨w, by simp, rest, rfl, ?_⟩
  rw [List.map_append, List.map_cons]
  refine reads_alts _ (fun b hb => ?_) (reads_word w rest)
  obtain ⟨v, hv, rfl⟩ := List.mem_map.mp hb
  refine refuses_word fun hstart => ?_
  have hno := hbefore v hv
  rw [Bool.not_eq_true', ← Bool.not_eq_true] at hno
  exact hno (List.isPrefixOf_iff_prefix.mpr hstart)

/-- A text is refused if a name goes on behind each of the words that it starts with. -/
theorem refuses_wholeWord {words : List String}
    (h : ∀ w ∈ words, ∀ rest, cs = w.toList ++ rest → ∃ c ∈ rest.head?, isNameChar c = true) :
    language.Refuses .atomic (wholeWord words) cs := by
  by_cases hstart : ∃ w ∈ words, w.toList <+: cs
  · obtain ⟨w, hw, rest, hcs, hread⟩ := @reads_words .atomic cs words hstart
    obtain ⟨c, hc, hname⟩ := h w hw rest hcs
    obtain _ | ⟨d, rest⟩ := rest
    · cases hc
    · obtain rfl : d = c := Option.some.inj hc
      exact .seq_right hread (.of_atomic _) (.without (.char hname))
  · refine .seq_left (refuses_alts fun e he => ?_)
    obtain ⟨w, hw, rfl⟩ := List.mem_map.mp he
    exact refuses_word fun hprefix => hstart ⟨w, hw, hprefix⟩

/-- A word is read with no name going on behind it, if it is the only one that a text starts with. -/
theorem reads_wholeWord {words : List String} {w : String} (hw : w ∈ words)
    (honly : ∀ v ∈ words, v.toList <+: w.toList ++ rest → v = w) (hrest : Parts rest) :
    language.Reads .atomic (wholeWord words) (w.toList ++ rest) rest Silent := by
  have hstart : ∃ v ∈ words, v.toList <+: w.toList ++ rest := ⟨w, hw, List.prefix_append _ _⟩
  obtain ⟨v, hv, after, hsplit, hread⟩ := @reads_words .atomic _ words hstart
  obtain rfl := honly v hv (hsplit ▸ List.prefix_append _ _)
  obtain rfl := List.append_cancel_left hsplit
  exact .silent_seq hread (.of_atomic _) (.without (.char hrest))

/-! ## Keywords and names -/

theorem isNameChar_of_mem_keyword :
    ∀ w ∈ keywords, ∀ c ∈ w.toList, isNameChar c = true := by decide

theorem isNameStart_of_head_keyword :
    ∀ w ∈ keywords, ∀ c ∈ w.toList.head?, isNameStart c = true := by decide

/-- No keyword starts with another one. -/
theorem keyword_starts : ∀ v ∈ keywords, ∀ w ∈ keywords, v.toList.isPrefixOf w.toList = true → v = w := by
  decide

/-- Name characters at the start of a text lie within the name that the text starts with. -/
theorem prefix_of_parts {word name : List Char} (hword : ∀ c ∈ word, isNameChar c = true) (hrest : Parts rest)
    (h : word <+: name ++ rest) : word <+: name := by
  rcases List.prefix_or_prefix_of_prefix h (List.prefix_append name rest) with hshort | ⟨more, rfl⟩
  · exact hshort
  · obtain _ | ⟨c, more⟩ := more
    · simp only [List.append_nil, List.prefix_rfl]
    · obtain _ | ⟨d, rest⟩ := rest
      · have hlength := h.length_le
        rw [List.append_nil, List.length_append, List.length_cons] at hlength
        omega
      · have hsame := List.prefix_append_right_inj name |>.mp h
        obtain rfl := (List.cons_prefix_cons.mp hsame).1
        have hno := hrest c rfl
        rw [hword c (by simp)] at hno
        cases hno

section

variable {words : List String} (hwords : ∀ w ∈ words, w ∈ keywords)

include hwords

/-- A keyword that a text starts with is the word itself. -/
theorem eq_of_leads {v w : String} (hv : v ∈ words) (hw : w ∈ keywords) (hrest : Parts rest)
    (h : v.toList <+: w.toList ++ rest) : v = w := by
  have hstart := prefix_of_parts (isNameChar_of_mem_keyword v (hwords v hv)) hrest h
  exact keyword_starts v (hwords v hv) w hw (List.isPrefixOf_iff_prefix.mpr hstart)

theorem reads_keyword {w : String} (hw : w ∈ words) (hrest : Parts rest) :
    language.Reads .atomic (wholeWord words) (w.toList ++ rest) rest Silent :=
  reads_wholeWord hw (fun _ hv h => eq_of_leads hwords hv (hwords w hw) hrest h) hrest

theorem refuses_other_keyword {w : String} (hw : w ∈ keywords) (hno : w ∉ words) (hrest : Parts rest) :
    language.Refuses .atomic (wholeWord words) (w.toList ++ rest) := by
  refine .seq_left (refuses_alts fun e he => ?_)
  obtain ⟨v, hv, rfl⟩ := List.mem_map.mp he
  refine refuses_word fun hprefix => ?_
  obtain rfl := eq_of_leads hwords hv hw hrest hprefix
  exact hno hv

/-- A name is no keyword, even if it begins like one. -/
theorem refuses_keyword_of_name {name : String} (hname : IsName name) (hrest : Parts rest) :
    language.Refuses .atomic (wholeWord words) (name.toList ++ rest) := by
  obtain ⟨-, hchars, hfree⟩ := hname
  refine refuses_wholeWord fun w hw after hsplit => ?_
  have hstart : w.toList <+: name.toList ++ rest := hsplit ▸ List.prefix_append _ _
  obtain ⟨more, hmore⟩ := prefix_of_parts (isNameChar_of_mem_keyword w (hwords w hw)) hrest hstart
  rw [← hmore, List.append_assoc] at hsplit
  obtain rfl := List.append_cancel_left hsplit
  obtain _ | ⟨c, more⟩ := more
  · -- The name would be the keyword.
    rw [List.append_nil] at hmore
    obtain rfl := String.toList_inj.mp hmore
    exact absurd (hwords w hw) hfree
  · refine ⟨c, rfl, hchars c ?_⟩
    rw [← hmore]
    simp

/-- What does not start like a name is no keyword. -/
theorem refuses_keyword_of_head (h : ∀ c ∈ cs.head?, isNameStart c = false) :
    language.Refuses .atomic (wholeWord words) cs := by
  refine refuses_wholeWord fun w hw rest hsplit => ?_
  have hhead := isNameStart_of_head_keyword w (hwords w hw)
  rw [hsplit] at h
  rcases hword : w.toList with _ | ⟨c, word⟩
  · have hempty : ∀ w ∈ keywords, w.toList ≠ [] := by decide
    exact absurd hword (hempty w (hwords w hw))
  · rw [hword] at h hhead
    have hno := h c rfl
    rw [hhead c rfl] at hno
    cases hno

end

/-- **A name is read** up to where no name goes on. -/
theorem reads_name {name : String} (hname : IsName name) (hrest : Parts rest) :
    Reads (.rule .identifier) (name.toList ++ rest) rest (fun parts => ∃ span, parts = [.name name span]) := by
  have hfree := refuses_keyword_of_name (fun _ hw => hw) hname hrest
  obtain ⟨⟨c, hc, hstart⟩, hchars, -⟩ := hname
  rcases hsplit : name.toList with _ | ⟨d, cs⟩
  · rw [hsplit] at hc
    cases hc
  · rw [hsplit] at hc hchars hfree
    obtain rfl : d = c := Option.some.inj hc
    refine .leaf (P := Silent) rfl (by decide) ?_ fun span => ⟨.name name span, ?_, span, rfl⟩
    · refine .silent_seq (.without (.rule hfree)) (.of_atomic _) ?_
      refine .silent_seq (.char hstart) (.of_atomic _) ?_
      exact .chars (fun e he => hchars e (List.mem_cons_of_mem d he)) hrest
    · rw [← hsplit, String.ofList_toList]
      exact leaf_eq_ok rfl

/-- A keyword is not read as a name. -/
theorem refuses_name_of_keyword {w : String} (hw : w ∈ keywords) (hrest : Parts rest) :
    Refuses (.rule .identifier) (w.toList ++ rest) :=
  .rule (.seq_left (.without (.atomic_rule rfl (reads_keyword (fun _ hw => hw) hw hrest))))

theorem refuses_name_of_head (h : ∀ c ∈ cs.head?, isNameStart c = false) :
    Refuses (.rule .identifier) cs := by
  have hfree := refuses_keyword_of_head (fun _ hw => hw) h
  refine .rule (.seq_right (.without (.rule hfree)) (.of_atomic cs) ?_)
  exact .seq_left (.char h)

/-! ## Literals -/

theorem reads_null (hrest : Parts rest) : Reads (.rule .nullLit) ("null".toList ++ rest) rest
    (fun parts => ∃ span, parts = [.expr (.null span)]) :=
  .leaf rfl (by decide) (reads_keyword (by decide) List.mem_cons_self hrest)
    fun span => ⟨.expr (.null span), leaf_eq_ok rfl, span, rfl⟩

theorem reads_bool {w : String} (hw : w = "true" ∨ w = "false") (hrest : Parts rest) :
    Reads (.rule .boolLit) (w.toList ++ rest) rest
      (fun parts => ∃ span, parts = [.expr (.bool (w == "true") span)]) := by
  refine .leaf rfl (by decide) (reads_keyword (by decide : ∀ w ∈ ["true", "false"], w ∈ keywords) ?_ hrest)
    fun span => ⟨.expr (.bool (w == "true") span), ?_, span, rfl⟩
  · simpa using hw
  · rw [String.ofList_toList]
    exact leaf_eq_ok rfl

theorem isDigit_of_mem_toDigits {n : Nat} {c : Char} (h : c ∈ Nat.toDigits 10 n) : isDigit c = true := by
  have hdigit := Nat.isDigit_of_mem_toDigits (by decide) (by decide) h
  simpa [isDigit, Char.isDigit, Char.le_def] using hdigit

/-- The value of digits is the number that they are the digits of. -/
theorem numberValue_digits (n : Nat) : Part.numberValue (String.ofList (Nat.toDigits 10 n)) = Float.ofNat n := by
  have hdigits : ∀ c ∈ Nat.toDigits 10 n, isDigit c = true := fun c => isDigit_of_mem_toDigits
  have hvalue : (Nat.toDigits 10 n).foldl (fun n c => 10 * n + (c.toNat - 48)) 0 = n :=
    Nat.ofDigitChars_ten_toDigits
  have hwhole : (Nat.toDigits 10 n).takeWhile isDigit = Nat.toDigits 10 n := by
    have htake : (Nat.toDigits 10 n ++ []).takeWhile isDigit = Nat.toDigits 10 n ++ [].takeWhile isDigit :=
      List.takeWhile_append_of_pos hdigits
    rwa [List.append_nil, List.takeWhile_nil, List.append_nil] at htake
  unfold Part.numberValue
  rw [String.toList_ofList, hwhole]
  dsimp only
  rw [List.drop_length, List.drop_nil, List.append_nil, hvalue]
  rfl

/-- The digits of a number are read up to where no digit and no point follows. -/
theorem reads_number (n : Nat) (hdigit : ∀ c ∈ rest.head?, isDigit c = false)
    (hpoint : ¬ ".".toList <+: rest) :
    Reads (.rule .number) (Nat.toDigits 10 n ++ rest) rest
      (fun parts => ∃ span, parts = [.expr (.num (Float.ofNat n) span)]) := by
  have hdigits : ∀ c ∈ Nat.toDigits 10 n, isDigit c = true := fun c => isDigit_of_mem_toDigits
  refine .leaf (P := Silent) rfl (by decide) ?_ fun span =>
    ⟨.expr (.num (Float.ofNat n) span), leaf_eq_ok ?_, span, rfl⟩
  · have hwhole : language.Reads .atomic (many1 (.char isDigit)) (Nat.toDigits 10 n ++ rest) rest Silent := by
      rcases hsplit : Nat.toDigits 10 n with _ | ⟨c, cs⟩
      · exact absurd hsplit Nat.toDigits_ne_nil
      · rw [hsplit] at hdigits
        refine .silent_seq (.char (hdigits c List.mem_cons_self)) (.of_atomic _) ?_
        exact .chars (fun d hd => hdigits d (List.mem_cons_of_mem c hd)) hdigit
    exact .silent_seq hwhole (.of_atomic _) (.opt_none (.seq_left (refuses_word hpoint)))
  · rw [Part.ofLeaf, numberValue_digits]

/-- Between quotes each character is read as it is written. -/
theorem reads_quoted (text rest : List Char) :
    language.Reads .atomic (quotedChars singleQuote) (text.flatMap escapeQuoted ++ singleQuote :: rest)
      (singleQuote :: rest) Silent := by
  refine .each (fun c hc rest => ?_) (.alt (.seq_left (.text ?_)) (.char ?_))
  · unfold escapeQuoted
    split
    · exact .alt_left (.silent_seq (.text [backslash] _) (.of_atomic _) (.char rfl))
    · next hplain =>
      rw [not_or] at hplain
      refine .alt_right (.seq_left (.text fun h => hplain.2 (List.cons_prefix_cons.mp h).1.symm)) (.char ?_)
      simp [hplain.1, hplain.2]
  · exact fun h => absurd (List.cons_prefix_cons.mp h).1 (by decide)
  · intro c hc
    obtain rfl := Option.some.inj hc
    decide

theorem unescape_append (c : Char) (rest : List Char) :
    Part.unescape (escapeQuoted c ++ rest) = c :: Part.unescape rest := by
  unfold escapeQuoted
  split
  · next hspecial =>
    rw [List.cons_append, List.cons_append, List.nil_append, Part.unescape, if_pos rfl]
    rcases hspecial with rfl | rfl
    · rfl
    · rfl
  · next hplain =>
    rw [not_or] at hplain
    obtain _ | ⟨d, rest⟩ := rest
    · rfl
    · rw [List.cons_append, List.nil_append, Part.unescape, if_neg hplain.2]

/-- The escapes of a string are undone. -/
theorem unescape_escapeQuoted (text : List Char) : Part.unescape (text.flatMap escapeQuoted) = text := by
  induction text with
  | nil => rfl
  | cons c text ih => rw [List.flatMap_cons, unescape_append, ih]

theorem reads_string (text : String) (rest : List Char) :
    Reads (.rule .string) (singleQuote :: (text.toList.flatMap escapeQuoted ++ singleQuote :: rest)) rest
      (fun parts => ∃ span, parts = [.expr (.str text span)]) := by
  have hinner : language.Reads .compound (.rule .singleQuoted)
      (text.toList.flatMap escapeQuoted ++ singleQuote :: rest) (singleQuote :: rest)
      (fun parts => parts = [.quoted (String.ofList (text.toList.flatMap escapeQuoted))]) :=
    .leaf rfl (by decide) (reads_quoted text.toList rest) fun span => ⟨_, leaf_eq_ok rfl, rfl⟩
  refine .node (P := fun parts => parts = [.quoted (String.ofList (text.toList.flatMap escapeQuoted))])
    (.inr rfl) (by decide) ?_ fun span values h => ⟨.expr (.str text span), ?_, span, rfl⟩
  · refine .alt_right (.seq_left (.text fun h => ?_)) ?_
    · exact absurd (List.cons_prefix_cons.mp h).1 (by decide)
    · refine .silent_seq (.text [singleQuote] _) (.of_compound _) ?_
      exact .seq_silent hinner (.of_compound _) (.text [singleQuote] rest)
  · subst h
    refine node_eq_ok ?_
    rw [Part.ofNode, String.toList_ofList, unescape_escapeQuoted, String.ofList_toList]

end DurableFlow.Script
