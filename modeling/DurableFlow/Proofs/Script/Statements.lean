/-
Statements are read back.

A statement is tried as a block, as an assignment and as an expression before its first
word is looked at. A keyword is neither a name nor the start of an expression, so a
statement that opens with one is left to the rule of this keyword. Where a statement
ends, an `else` must not follow that belongs to a condition in front; what comes next
may still be a name that only begins like that word.
-/
import DurableFlow.Proofs.Script.Expressions

set_option autoImplicit false

namespace DurableFlow.Script

open Text Text.Peg Grammar
open scoped Members

variable {cs later rest : List Char} {P : List Part → Prop}

-- what a rule makes of its parts is seen from their kinds
attribute [local simp] Part.ofNode Part.ofOperator Part.ofStatement

/-! ## What parts stand for -/

/-- Used as a statement, a part is this one, up to spans. -/
def Part.Does (part : Part) (s : Stmt) : Prop :=
  ∃ found, part.stmt? = some found ∧ found.bare = s.bare

/-- There is one part, and it is this statement. -/
def Statement (s : Stmt) (parts : List Part) : Prop := ∃ part, parts = [part] ∧ part.Does s

/-- The parts are these statements. -/
def Statements (ss : List Stmt) (parts : List Part) : Prop :=
  ∃ found, Part.stmts? parts = some found ∧ bareStmts found = bareStmts ss

theorem Statement.of_stmt {s found : Stmt} (h : found.bare = s.bare) : Statement s [.stmt found] :=
  ⟨.stmt found, rfl, found, rfl, h⟩

theorem Part.ShowsBody.does {part : Part} {body : Stmt} (h : part.ShowsBody body) : part.Does body := by
  obtain ⟨found, span, rfl, hbare⟩ := h
  exact ⟨.block found span, rfl, hbare⟩

theorem Part.stmts?_cons {part : Part} {parts : List Part} {first : Stmt} {others : List Stmt}
    (hfirst : part.stmt? = some first) (hothers : Part.stmts? parts = some others) :
    Part.stmts? (part :: parts) = some (first :: others) := by
  have hno : part ≠ .finish := by
    rintro rfl
    cases hfirst
  rw [Part.stmts?, hfirst, hothers]
  · rfl
  · exact hno

/-- A statement and those behind it are read as one list. -/
theorem Statements.of_then {s : Stmt} {ss : List Stmt} {parts : List Part}
    (h : Then (Statement s) (Statements ss) parts) : Statements (s :: ss) parts := by
  obtain ⟨_, others, rfl, ⟨part, rfl, first, hfirst, hbare⟩, found, hfound, hbares⟩ := h
  exact ⟨first :: found, Part.stmts?_cons hfirst hfound, by rw [bareStmts, bareStmts, hbare, hbares]⟩

/-! ## What follows a statement -/

/-- What may follow a statement: nothing that a condition in front would take for its other branch. -/
structure Follows (cs : List Char) : Prop where
  stands : Stands cs
  otherwise : Refuses (.rule .elseClause) cs

/-- Any token that does not open with the first letter of `else` can follow a statement. -/
theorem follows_of_head {c : Char} (hstands : Stands (c :: rest)) (hc : c ≠ 'e') : Follows (c :: rest) :=
  ⟨hstands, .rule (.seq_left (refuses_symbol rfl fun heq => hc (Option.some.inj heq)))⟩

theorem follows_nil : Follows [] := ⟨stands_nil, .rule (.seq_left (refuses_symbol rfl (by simp)))⟩

/-- Any keyword but `else` can follow a statement. -/
theorem follows_keyword {w : String} (hw : w ∈ keywords) (hno : w ≠ "else") (hrest : Parts rest) :
    Follows (w.toList ++ rest) := by
  refine ⟨(starts_keyword hw rest).stands, .rule (.seq_left (refuses_word fun hprefix => ?_))⟩
  have hwords : ∀ w ∈ ["else"], w ∈ keywords := by decide
  exact hno (eq_of_leads hwords List.mem_cons_self hw hrest hprefix).symm

/-- Within a name, what follows one of its parts goes on with the name or with what stands behind it. -/
theorem head_within {word name : List Char} {c : Char} (hname : ∀ d ∈ name, isNameChar d = true)
    (h : name ++ c :: rest = word ++ later) (hword : word <+: name) :
    ∃ d, later.head? = some d ∧ (isNameChar d = true ∨ d = c) := by
  obtain ⟨more, rfl⟩ := hword
  rw [List.append_assoc] at h
  obtain rfl := List.append_cancel_left h
  obtain _ | ⟨d, more⟩ := more
  · exact ⟨c, rfl, .inr rfl⟩
  · exact ⟨d, rfl, .inl (hname d (by simp))⟩

/-- A name that goes on is no keyword. -/
theorem stands_within {d : Char} (hhead : cs.head? = some d) (hd : isNameChar d = true ∨ d = '=') : Stands cs := by
  obtain ⟨e, more, rfl⟩ : ∃ e more, cs = e :: more := by
    obtain _ | ⟨e, more⟩ := cs
    · cases hhead
    · exact ⟨e, more, rfl⟩
  obtain rfl := Option.some.inj hhead
  refine stands_cons ?_ ?_
  · rw [← Bool.not_eq_true]
    intro hblank
    simp only [isBlank, Bool.or_eq_true, decide_eq_true_eq] at hblank
    rcases hblank with ((rfl | rfl) | rfl) | rfl
    all_goals exact absurd hd (by decide)
  · rintro rfl
    exact absurd hd (by decide)

/-- **A name that begins like `else` starts no other branch**, not even `elseif`. -/
theorem follows_assignment {name : String} (hname : IsName name) (more : List Char) :
    Follows (name.toList ++ '=' :: more) := by
  have hequals : Parts ('=' :: more) := parts_cons rfl
  obtain ⟨-, hchars, hfree⟩ := id hname
  have hwhole : ∀ w ∈ keywords, ∀ name : List Char, w.toList <+: name ++ '=' :: more → w.toList <+: name :=
    fun w hw name h => prefix_of_parts (isNameChar_of_mem_keyword w hw) hequals h
  refine ⟨(starts_name hname _).stands, .rule ?_⟩
  by_cases helse : "else".toList <+: name.toList ++ '=' :: more
  · obtain ⟨tail, htail⟩ := hwhole "else" (by decide) _ helse
    have htailChars : ∀ c ∈ tail, isNameChar c = true := fun c hc => hchars c (by rw [← htail]; simp [hc])
    -- The word is not the whole name, since it is a keyword.
    obtain ⟨c, tail, rfl⟩ : ∃ c others, tail = c :: others := by
      obtain _ | ⟨c, others⟩ := tail
      · rw [List.append_nil] at htail
        rw [← String.toList_inj.mp htail] at hfree
        exact absurd (by decide) hfree
      · exact ⟨c, others, rfl⟩
    have hc : isNameChar c = true := htailChars c List.mem_cons_self
    have hbrace : c ≠ '\x7b' := by
      rintro rfl
      cases hc
    rw [← htail, List.append_assoc]
    refine .seq_right (reads_word "else" _) (skips_none (stands_within rfl (.inl hc))) (.alt (.rule ?_) (.rule ?_))
    · by_cases hif : "if".toList <+: c :: tail ++ '=' :: more
      · obtain ⟨after, hafter⟩ := hif
        obtain ⟨d, hd, hclass⟩ := head_within htailChars hafter.symm
          (hwhole "if" (by decide) _ (hafter ▸ List.prefix_append _ _))
        rw [← hafter]
        refine .seq_right (reads_word "if" after) (skips_none (stands_within hd hclass)) (.seq_left ?_)
        refine refuses_symbol rfl fun heq => ?_
        rw [hd] at heq
        obtain rfl := Option.some.inj heq
        exact absurd hclass (by decide)
      · exact .seq_left (refuses_word hif)
    · exact .seq_left (refuses_symbol rfl fun heq => hbrace (Option.some.inj heq))
  · exact .seq_left (refuses_word helse)

/-! ## The choice of a statement -/

/-- The keywords that open a statement, with its rule, in the order in which they are tried. -/
def openings : List (String × Rule) :=
  [("let", .letStmt), ("if", .ifStmt), ("while", .whileStmt), ("try", .tryStmt), ("return", .returnStmt),
    ("throw", .throwStmt), ("break", .breakStmt), ("continue", .continueStmt)]

/-- A block, an assignment and an expression are tried first, then the statements that open with a keyword,
in the order of `openings`. -/
theorem define_statement : (language.grammar.define .statement).body =
    alts ([.rule .block, .rule .assignStmt, .rule .exprStmt] ++ openings.map fun opening => .rule opening.2) := rfl

/-- No literal and no `else` opens a statement. -/
theorem mem_keywords_of_opening : ∀ opening ∈ openings,
    opening.1 ∈ keywords ∧ opening.1 ∉ ["null", "true", "false"] ∧ opening.1 ≠ "else" := by decide

/-- Each of these rules starts with its keyword. -/
theorem refuses_opening {opening : String × Rule} (h : opening ∈ openings) (hno : ¬ opening.1.toList <+: cs) :
    Refuses (.rule opening.2) cs := by
  simp only [openings, List.mem_cons, List.not_mem_nil, or_false] at h
  refine .rule ?_
  rcases h with rfl | rfl | rfl | rfl | rfl | rfl | rfl | rfl
  all_goals exact .seq_left (refuses_word hno)

/-- A statement is what the rule that reads it says. -/
theorem reads_statement {s : Stmt} {exps : List (Exp Rule)}
    (hbody : (language.grammar.define .statement).body = alts exps)
    (h : Reads (alts exps) cs rest (Statement s)) : Reads (.rule .statement) cs rest (Statement s) := by
  refine .node (P := Statement s) (.inl rfl) (by decide) ?_ fun span parts hparts => ?_
  · rw [hbody]
    exact h
  · obtain ⟨part, rfl, found, hfound, hbare⟩ := hparts
    refine ⟨.stmt found, node_eq_ok ?_, .of_stmt hbare⟩
    simp [hfound]

/-- **A statement that opens with a keyword** is left to the rule of this keyword. -/
theorem reads_opening {s : Stmt} {w : String} {rule : Rule} (hrest : Parts later)
    (hfirst : openings.find? (fun opening => opening.1 == w) = some (w, rule))
    (h : Reads (.rule rule) (w.toList ++ later) rest (Statement s)) :
    Reads (.rule .statement) (w.toList ++ later) rest (Statement s) := by
  obtain ⟨-, before, after, hsplit, hbefore⟩ := List.find?_eq_some_iff_append.mp hfirst
  obtain ⟨hkeyword, hliteral, -⟩ := mem_keywords_of_opening (w, rule) (by rw [hsplit]; simp)
  obtain ⟨c, hhead, hstart⟩ := head_of_keyword hkeyword later
  have hno : ∀ d, isNameStart d = false → (w.toList ++ later).head? ≠ some d := by
    intro d hd heq
    rw [hhead] at heq
    rw [Option.some.inj heq, hd] at hstart
    cases hstart
  have hname := refuses_name_of_keyword hkeyword hrest
  have hclasses : ∀ d ∈ ['!', '-', '(', '[', '\x7b'], isNameStart d = false := by decide
  have hexpression : Refuses (.rule .expression) (w.toList ++ later) :=
    refuses_expression (starts_keyword hkeyword later).stands (fun d hd => hno d (hclasses d hd))
      (refuses_literal_of_keyword hkeyword hliteral hrest) hname
  refine reads_statement define_statement ?_
  rw [hsplit, List.map_append, List.map_cons, ← List.append_assoc]
  refine reads_alts _ (fun exp hexp => ?_) h
  rcases List.mem_append.mp hexp with hexp | hexp
  · simp only [List.mem_cons, List.not_mem_nil, or_false] at hexp
    rcases hexp with rfl | rfl | rfl
    · exact .rule (.seq_left (refuses_symbol rfl (hno '\x7b' (by decide))))
    · exact .rule (.seq_left hname)
    · exact .rule (.seq_left hexpression)
  · -- An earlier keyword would be this one.
    obtain ⟨opening, hopening, rfl⟩ := List.mem_map.mp hexp
    have hmem : opening ∈ openings := by rw [hsplit]; simp [hopening]
    have hwords : ∀ v ∈ [opening.1], v ∈ keywords := fun v hv =>
      List.mem_singleton.mp hv ▸ (mem_keywords_of_opening opening hmem).1
    refine refuses_opening hmem fun hprefix => ?_
    have hsame := eq_of_leads hwords List.mem_cons_self hkeyword hrest hprefix
    have hapart := hbefore opening hopening
    rw [hsame] at hapart
    simp at hapart

/-- Where statements end there is none. -/
theorem refuses_statement (h : ∀ c ∈ cs.head?, c = '\x7d') : Refuses (.rule .statement) cs := by
  have hno : ∀ d, d ≠ '\x7d' → cs.head? ≠ some d := fun d hd heq => hd (h d heq)
  have hbare : Bare cs := by
    intro c hc
    rw [h c hc]
    decide
  have hstands : Stands cs := by
    obtain _ | ⟨c, cs⟩ := cs
    · exact stands_nil
    · obtain rfl := h c rfl
      exact stands_cons rfl (by decide)
  have hsymbols : ∀ d ∈ ['!', '-', '(', '[', '\x7b'], d ≠ '\x7d' := by decide
  have hexpression := refuses_expression hstands (fun d hd => hno d (hsymbols d hd)) hbare.refuses_literal
    hbare.refuses_name
  refine .rule ?_
  rw [define_statement]
  refine refuses_alts fun exp hexp => ?_
  rcases List.mem_append.mp hexp with hexp | hexp
  · simp only [List.mem_cons, List.not_mem_nil, or_false] at hexp
    rcases hexp with rfl | rfl | rfl
    · exact .rule (.seq_left (refuses_symbol rfl (hno '\x7b' (by decide))))
    · exact .rule (.seq_left hbare.refuses_name)
    · exact .rule (.seq_left hexpression)
  · obtain ⟨opening, hopening, rfl⟩ := List.mem_map.mp hexp
    have hheads : ∀ opening ∈ openings, ∃ c, opening.1.toList.head? = some c ∧ c ≠ '\x7d' := by decide
    obtain ⟨c, hc, hapart⟩ := hheads opening hopening
    exact refuses_opening hopening (not_starts hc (hno c hapart))

/-! ## Blocks -/

/-- **A statement is read back** from its text in front of whatever may follow it. -/
structure Stmt.ReadsBack (s : Stmt) : Prop where
  follows : ∀ rest, Follows (s.write rest)
  reads : ∀ rest, Follows rest → Reads (.rule .statement) (s.write rest) rest (Statement s)
  braced : s.isBlock = true → s.ReadsBraced
  chained : s.isIf = true → ∀ rest, Follows rest → Reads (.rule .ifStmt) (s.write rest) rest (Statement s)

/-- Before a list of statements a statement may end. -/
theorem follows_statements {ss : List Stmt} (h : ∀ s ∈ ss, s.ReadsBack) (hrest : Follows rest) :
    Follows (writeStmts ss rest) := by
  cases ss with
  | nil =>
    rw [writeStmts]
    exact hrest
  | cons s ss =>
    rw [writeStmts]
    exact (h s List.mem_cons_self).follows _

/-- Statements one behind the other, up to where there are no more. -/
theorem rounds_statements {ss : List Stmt} (h : ∀ s ∈ ss, s.ReadsBack) (hrest : Follows rest)
    (hstop : Refuses (.rule .statement) rest) :
    language.Rounds .spaced (.rule .statement) rest (writeStmts ss rest) (Statements ss) := by
  induction ss with
  | nil =>
    rw [writeStmts]
    exact .stop (skips_none hrest.stands) hstop ⟨[], rfl, rfl⟩
  | cons s ss ih =>
    have hs := h s List.mem_cons_self
    have hss : ∀ s ∈ ss, s.ReadsBack := fun s hs => h s (List.mem_cons_of_mem _ hs)
    rw [writeStmts]
    exact .round (skips_none (hs.follows _).stands) (hs.reads _ (follows_statements hss hrest)) (ih hss)
      fun _ => Statements.of_then

theorem follows_brace (rest : List Char) : Follows ('\x7d' :: rest) :=
  follows_of_head (stands_cons rfl (by decide)) (by decide)

/-- **A block and a closure are statements between braces.** -/
theorem readsBraced {ss : List Stmt} (h : ∀ s ∈ ss, s.ReadsBack) (span : Span) :
    (Stmt.block ss span).ReadsBraced := by
  intro rule hrule rest
  have hrounds := rounds_statements h (follows_brace rest) (refuses_statement (by simp))
  have hbody : Reads braced ('\x7b' :: writeStmts ss ('\x7d' :: rest)) rest (Statements ss) :=
    .silent_seq (reads_word "\x7b" _) (skips_none (follows_statements h (follows_brace rest)).stands)
      (.seq_silent hrounds.many (skips_none (follows_brace rest).stands) (reads_word "\x7d" rest))
  have hvalue : ∀ found inner, bareStmts found = bareStmts ss →
      (Part.braced found inner).ShowsBody (.block ss span) := fun found inner hbare =>
    ⟨found, inner, rfl, by rw [Stmt.bare, Stmt.bare, hbare]⟩
  rw [Stmt.write]
  rcases hrule with rfl | rfl
  · refine .node (.inl rfl) (by decide) hbody fun inner parts hparts => ?_
    obtain ⟨found, hfound, hbare⟩ := hparts
    exact ⟨.braced found inner, node_eq_ok (by simp [hfound]), _, rfl, hvalue found inner hbare⟩
  · refine .node (.inl rfl) (by decide) hbody fun inner parts hparts => ?_
    obtain ⟨found, hfound, hbare⟩ := hparts
    exact ⟨.braced found inner, node_eq_ok (by simp [hfound]), _, rfl, hvalue found inner hbare⟩

theorem Stmt.ReadsBraced.block {body : Stmt} (h : body.ReadsBraced) (rest : List Char) :
    Reads (.rule .block) (body.write rest) rest (Statement body) := by
  refine (h .block (.inl rfl) rest).mono fun parts hparts => ?_
  obtain ⟨part, rfl, hshows⟩ := hparts
  exact ⟨part, rfl, hshows.does⟩

theorem readsBack_block {ss : List Stmt} (h : ∀ s ∈ ss, s.ReadsBack) (span : Span) :
    (Stmt.block ss span).ReadsBack where
  follows rest := by
    rw [Stmt.write]
    exact follows_of_head (stands_cons rfl (by decide)) (by decide)
  reads rest _ :=
    reads_statement define_statement (reads_alts [] (by simp) ((readsBraced h span).block rest))
  braced _ := readsBraced h span
  chained hif := absurd hif Bool.false_ne_true

/-! ## Simple statements -/

theorem reads_semicolon (rest : List Char) : Reads semicolon (';' :: rest) rest Silent :=
  .opt (reads_word ";" rest)

theorem closes_semicolon (rest : List Char) : Closes (';' :: rest) := closes_cons (by simp)

/-- An expression up to the semicolon that ends its statement. -/
theorem reads_ended {e : Expr} (h : e.ReadsBack) (rest : List Char) :
    Reads (.seq (.rule .expression) semicolon) (e.write (';' :: rest)) rest (Value e) :=
  .seq_silent (h.reads _ (closes_semicolon rest)) (skips_none (closes_semicolon rest).stands) (reads_semicolon rest)

/-- What a statement with one rule of its own needs. -/
theorem Stmt.ReadsBack.of_opening {s : Stmt} (w : String) (rule : Rule)
    (hfirst : openings.find? (fun opening => opening.1 == w) = some (w, rule))
    (hwrite : ∀ rest, ∃ more, s.write rest = w.toList ++ more ∧ Parts more) (hblock : s.isBlock = false)
    (hif : s.isIf = true → rule = .ifStmt)
    (h : ∀ rest, Follows rest → Reads (.rule rule) (s.write rest) rest (Statement s)) : s.ReadsBack where
  follows rest := by
    obtain ⟨more, hmore, hparts⟩ := hwrite rest
    obtain ⟨hkeyword, -, hno⟩ := mem_keywords_of_opening (w, rule) (List.mem_of_find?_eq_some hfirst)
    rw [hmore]
    exact follows_keyword hkeyword hno hparts
  reads rest hrest := by
    obtain ⟨more, hmore, hparts⟩ := hwrite rest
    have hread := h rest hrest
    rw [hmore] at hread ⊢
    exact reads_opening hparts hfirst hread
  braced hbraced := by
    rw [hblock] at hbraced
    cases hbraced
  chained hchained rest hrest := hif hchained ▸ h rest hrest

theorem readsBack_bind_none {name : String} (hname : IsName name) (span : Span) :
    (Stmt.bind name none span).ReadsBack := by
  refine .of_opening "let" .letStmt (by decide) (fun rest => ?_) rfl nofun fun rest _ => ?_
  · rw [Stmt.write]
    exact ⟨_, rfl, parts_cons rfl⟩
  · rw [Stmt.write]
    have hend := closes_semicolon rest
    have hequals : Refuses (.seq (word "=") (.rule .expression)) (';' :: rest) :=
      .seq_left (refuses_symbol rfl fun heq => absurd (Option.some.inj heq) (by decide))
    refine .node (.inl rfl) (by decide) (.silent_seq (reads_word "let" _)
      (skips_blank (starts_name hname _).stands) (.seq_silent (reads_name hname hend.parts) (skips_none hend.stands)
        (.silent_seq (.opt_none hequals) (skips_none hend.stands) (reads_semicolon rest))))
      fun inner parts hparts => ?_
    obtain ⟨at_, rfl⟩ := hparts
    exact ⟨.stmt (.bind name none inner), node_eq_ok rfl, .of_stmt (by rw [Stmt.bare, Stmt.bare])⟩

/-- A binding is read back with its value. -/
theorem readsBack_bind {name : String} {value : Expr} (hname : IsName name) (hvalue : value.ReadsBack)
    (span : Span) : (Stmt.bind name (some value) span).ReadsBack := by
  refine .of_opening "let" .letStmt (by decide) (fun rest => ?_) rfl nofun fun rest _ => ?_
  · rw [Stmt.write]
    exact ⟨_, rfl, parts_cons rfl⟩
  · rw [Stmt.write]
    have hend := closes_semicolon rest
    have hequals : Reads (.opt (.seq (word "=") (.rule .expression))) ('=' :: value.write (';' :: rest)) (';' :: rest)
        (Value value) :=
      .opt (.silent_seq (reads_word "=" _) (skips_none (hvalue.stands _)) (hvalue.reads _ hend))
    refine .node (.inl rfl) (by decide) (.silent_seq (reads_word "let" _)
      (skips_blank (starts_name hname _).stands) (.seq (reads_name hname (parts_cons rfl))
        (skips_none (stands_cons rfl (by decide))) (.seq_silent hequals (skips_none hend.stands)
          (reads_semicolon rest)))) fun inner parts hparts => ?_
    obtain ⟨_, _, rfl, ⟨at_, rfl⟩, part, rfl, found, hfound, hbare⟩ := hparts
    refine ⟨.stmt (.bind name (some found) inner), node_eq_ok ?_, .of_stmt (by rw [Stmt.bare, Stmt.bare, hbare])⟩
    simp [hfound]

/-- An assignment is tried before an expression, which its name could be. -/
theorem readsBack_assign {name : String} {value : Expr} (hname : IsName name) (hvalue : value.ReadsBack)
    (span : Span) : (Stmt.assign name value span).ReadsBack where
  follows rest := by
    rw [Stmt.write]
    exact follows_assignment hname _
  reads rest _ := by
    rw [Stmt.write]
    have hassign : Reads (.rule .assignStmt) (lexeme name ('=' :: value.write (';' :: rest))) rest
        (Statement (.assign name value span)) := by
      refine .node (.inl rfl) (by decide) (.seq (reads_name hname (parts_cons rfl))
        (skips_none (stands_cons rfl (by decide))) (.silent_seq (reads_word "=" _) (skips_none (hvalue.stands _))
          (.silent_seq (.without (refuses_symbol rfl (hvalue.apart _))) (skips_none (hvalue.stands _))
            (reads_ended hvalue rest)))) fun inner parts hparts => ?_
      obtain ⟨_, _, rfl, ⟨at_, rfl⟩, part, rfl, found, hfound, hbare⟩ := hparts
      refine ⟨.stmt (.assign name found inner), node_eq_ok ?_, .of_stmt (by rw [Stmt.bare, Stmt.bare, hbare])⟩
      simp [hfound]
    refine reads_statement define_statement (reads_alts [.rule .block] (fun exp hexp => ?_) hassign)
    obtain rfl := List.mem_singleton.mp hexp
    exact .rule (.seq_left (refuses_symbol rfl (head_ne_of_name hname _ (by decide))))
  braced h := absurd h Bool.false_ne_true
  chained h := absurd h Bool.false_ne_true

/-- An expression that stands alone is read back: neither a block nor an assignment begins with its text. -/
theorem readsBack_eval {e : Expr} (he : e.ReadsBack) (span : Span) : (Stmt.eval e span).ReadsBack where
  follows rest := by
    rw [Stmt.write]
    exact follows_of_head (stands_cons rfl (by decide)) (by decide)
  reads rest _ := by
    rw [Stmt.write]
    have hend := closes_semicolon rest
    have hoperand : Reads (.rule (levelRule 0)) ('(' :: e.write (')' :: ';' :: rest)) (';' :: rest) (Value e) :=
      reads_operand (Nat.zero_le 6) he hend.stands fun _ hno => absurd hno (Nat.not_lt_zero _)
    have heval : Reads (.rule .exprStmt) ('(' :: e.write (')' :: ';' :: rest)) rest (Statement (.eval e span)) := by
      refine .node (.inl rfl) (by decide) (.seq_silent (reads_expression (Nat.zero_le 6) hoperand hend)
        (skips_none hend.stands) (reads_semicolon rest)) fun inner parts hparts => ?_
      obtain ⟨part, rfl, found, hfound, hbare⟩ := hparts
      refine ⟨.stmt (.eval found inner), node_eq_ok ?_, .of_stmt (by rw [Stmt.bare, Stmt.bare, hbare])⟩
      simp [hfound]
    refine reads_statement define_statement
      (reads_alts [.rule .block, .rule .assignStmt] (fun exp hexp => ?_) heval)
    simp only [List.mem_cons, List.not_mem_nil, or_false] at hexp
    rcases hexp with rfl | rfl
    · exact .rule (.seq_left (refuses_symbol rfl fun heq => absurd (Option.some.inj heq) (by decide)))
    · exact .rule (.seq_left (refuses_before_bracket (by simp) _).2.2)
  braced h := absurd h Bool.false_ne_true
  chained h := absurd h Bool.false_ne_true

theorem readsBack_ret_none (span : Span) : (Stmt.ret none span).ReadsBack := by
  refine .of_opening "return" .returnStmt (by decide) (fun rest => ?_) rfl nofun fun rest _ => ?_
  · rw [Stmt.write]
    exact ⟨';' :: rest, rfl, parts_cons rfl⟩
  · rw [Stmt.write]
    have hend := closes_semicolon rest
    refine .node (P := Silent) (.inl rfl) (by decide) (.silent_seq (reads_word "return" _) (skips_none hend.stands)
      (.silent_seq (.opt_none hend.refuses_expression) (skips_none hend.stands) (reads_semicolon rest)))
      fun inner parts hparts => ?_
    obtain rfl : parts = [] := hparts
    exact ⟨.stmt (.ret none inner), node_eq_ok rfl, .of_stmt (by rw [Stmt.bare, Stmt.bare])⟩

theorem readsBack_ret {value : Expr} (hvalue : value.ReadsBack) (span : Span) :
    (Stmt.ret (some value) span).ReadsBack := by
  refine .of_opening "return" .returnStmt (by decide) (fun rest => ?_) rfl nofun fun rest _ => ?_
  · rw [Stmt.write]
    exact ⟨' ' :: value.write (';' :: rest), rfl, parts_cons rfl⟩
  · rw [Stmt.write]
    have hend := closes_semicolon rest
    refine .node (.inl rfl) (by decide) (.silent_seq (reads_word "return" _) (skips_blank (hvalue.stands _))
      (.seq_silent (.opt (hvalue.reads _ hend)) (skips_none hend.stands) (reads_semicolon rest)))
      fun inner parts hparts => ?_
    obtain ⟨part, rfl, found, hfound, hbare⟩ := hparts
    refine ⟨.stmt (.ret (some found) inner), node_eq_ok ?_, .of_stmt (by rw [Stmt.bare, Stmt.bare, hbare])⟩
    simp [hfound]

theorem readsBack_throw {value : Expr} (hvalue : value.ReadsBack) (span : Span) :
    (Stmt.throw value span).ReadsBack := by
  refine .of_opening "throw" .throwStmt (by decide) (fun rest => ?_) rfl nofun fun rest _ => ?_
  · rw [Stmt.write]
    exact ⟨' ' :: value.write (';' :: rest), rfl, parts_cons rfl⟩
  · rw [Stmt.write]
    refine .node (.inl rfl) (by decide) (.silent_seq (reads_word "throw" _) (skips_blank (hvalue.stands _))
      (reads_ended hvalue rest)) fun inner parts hparts => ?_
    obtain ⟨part, rfl, found, hfound, hbare⟩ := hparts
    refine ⟨.stmt (.throw found inner), node_eq_ok ?_, .of_stmt (by rw [Stmt.bare, Stmt.bare, hbare])⟩
    simp [hfound]

theorem readsBack_breakLoop (span : Span) : (Stmt.breakLoop span).ReadsBack := by
  refine .of_opening "break" .breakStmt (by decide) (fun rest => ?_) rfl nofun fun rest _ => ?_
  · rw [Stmt.write]
    exact ⟨';' :: rest, rfl, parts_cons rfl⟩
  · rw [Stmt.write]
    refine .node (P := Silent) (.inl rfl) (by decide) (.silent_seq (reads_word "break" _)
      (skips_none (closes_semicolon rest).stands) (reads_semicolon rest)) fun inner parts hparts => ?_
    obtain rfl : parts = [] := hparts
    exact ⟨.stmt (.breakLoop inner), node_eq_ok rfl, .of_stmt (by rw [Stmt.bare, Stmt.bare])⟩

theorem readsBack_continueLoop (span : Span) : (Stmt.continueLoop span).ReadsBack := by
  refine .of_opening "continue" .continueStmt (by decide) (fun rest => ?_) rfl nofun fun rest _ => ?_
  · rw [Stmt.write]
    exact ⟨';' :: rest, rfl, parts_cons rfl⟩
  · rw [Stmt.write]
    refine .node (P := Silent) (.inl rfl) (by decide) (.silent_seq (reads_word "continue" _)
      (skips_none (closes_semicolon rest).stands) (reads_semicolon rest)) fun inner parts hparts => ?_
    obtain rfl : parts = [] := hparts
    exact ⟨.stmt (.continueLoop inner), node_eq_ok rfl, .of_stmt (by rw [Stmt.bare, Stmt.bare])⟩

/-! ## Conditions, loops and handlers -/

/-- An expression in the parentheses of a statement, and what stands behind it. -/
theorem reads_condition {test : Expr} {tail : Exp Rule} (htest : test.ReadsBack) (hstands : Stands later)
    (htail : Reads tail later rest P) :
    Reads (.seq (word "(") (.seq (.rule .expression) (.seq (word ")") tail))) ('(' :: test.write (')' :: later)) rest
      (Then (Value test) P) := by
  have hclose : Closes (')' :: later) := closes_cons (by simp)
  exact .silent_seq (reads_word "(" _) (skips_none (htest.stands _))
    (.seq (htest.reads _ hclose) (skips_none hclose.stands)
      (.silent_seq (reads_word ")" _) (skips_none hstands) htail))

/-- The parts behind the first branch of a condition: none, or the other branch. -/
def Otherwise (no : Option Stmt) (parts : List Part) : Prop :=
  (parts = [] ∧ no = none) ∨ ∃ s, no = some s ∧ Statement s parts

/-- **A condition**, with what may stand behind its first branch. -/
theorem reads_if {test : Expr} {yes : Stmt} {no : Option Stmt} (span : Span) (htest : test.ReadsBack)
    (hblock : yes.isBlock = true) (hyes : yes.ReadsBraced) (hstands : Stands later)
    (hlater : Reads (.opt (.rule .elseClause)) later rest (Otherwise no)) :
    Reads (.rule .ifStmt) (lexeme "if(" (test.write (')' :: yes.write later))) rest
      (Statement (.ifThen test yes no span)) := by
  have hbranches := Language.Reads.seq (hyes.block later) (skips_none hstands) hlater
  refine .node (.inl rfl) (by decide) (.silent_seq (reads_word "if" _)
    (skips_none (stands_cons rfl (by decide))) (reads_condition htest (stands_body hblock _) hbranches))
    fun inner parts hparts => ?_
  obtain ⟨_, _, rfl, ⟨part, rfl, t, ht, htbare⟩, _, others, rfl, ⟨first, rfl, y, hy, hybare⟩, hothers⟩ := hparts
  rcases hothers with ⟨rfl, rfl⟩ | ⟨s, rfl, other, rfl, n, hn, hnbare⟩
  · refine ⟨.stmt (.ifThen t y none inner), node_eq_ok ?_, .of_stmt (by rw [Stmt.bare, Stmt.bare, htbare, hybare])⟩
    simp [ht, hy]
  · refine ⟨.stmt (.ifThen t y (some n) inner), node_eq_ok ?_,
      .of_stmt (by rw [Stmt.bare, Stmt.bare, htbare, hybare, hnbare])⟩
    simp [ht, hy, hn]

/-- The other branch of a condition is a block or another condition. -/
theorem reads_otherwise {no : Stmt} (hkind : no.isBlock = true ∨ no.isIf = true) (hno : no.ReadsBack)
    (hrest : Follows rest) :
    Reads (.opt (.rule .elseClause)) (lexeme "else " (no.write rest)) rest (Otherwise (some no)) := by
  have hbranch : Reads (.alt (.rule .ifStmt) (.rule .block)) (no.write rest) rest (Statement no) := by
    rcases hkind with hblock | hif
    · have hbrace := head_write_of_isBlock hblock rest
      refine .alt_right (.rule (.seq_left (refuses_symbol rfl fun heq => ?_))) ((hno.braced hblock).block rest)
      rw [hbrace] at heq
      exact absurd (Option.some.inj heq) (by decide)
    · exact .alt_left (hno.chained hif rest hrest)
  have helse : Reads (.rule .elseClause) (lexeme "else " (no.write rest)) rest (Statement no) := by
    refine .node (.inl rfl) (by decide) (.silent_seq (reads_word "else" _)
      (skips_blank (hno.follows rest).stands) hbranch) fun inner parts hparts => ?_
    obtain ⟨part, rfl, found, hfound, hbare⟩ := hparts
    refine ⟨.stmt found, node_eq_ok ?_, .of_stmt hbare⟩
    simp [hfound]
  exact .opt (helse.mono fun parts hparts => .inr ⟨no, rfl, hparts⟩)

theorem readsBack_ifThen_none {test : Expr} {yes : Stmt} (span : Span) (htest : test.ReadsBack)
    (hblock : yes.isBlock = true) (hyes : yes.ReadsBraced) : (Stmt.ifThen test yes none span).ReadsBack := by
  refine .of_opening "if" .ifStmt (by decide) (fun rest => ?_) rfl (fun _ => rfl) fun rest hrest => ?_
  · rw [Stmt.write]
    exact ⟨'(' :: test.write (')' :: yes.write rest), rfl, parts_cons rfl⟩
  · rw [Stmt.write]
    refine reads_if span htest hblock hyes hrest.stands ((Language.Reads.opt_none hrest.otherwise).mono ?_)
    rintro parts rfl
    exact .inl ⟨rfl, rfl⟩

/-- An `else` is read with the `if` that it was written for. -/
theorem readsBack_ifThen {test : Expr} {yes no : Stmt} (span : Span) (htest : test.ReadsBack)
    (hblock : yes.isBlock = true) (hyes : yes.ReadsBraced) (hkind : no.isBlock = true ∨ no.isIf = true)
    (hno : no.ReadsBack) : (Stmt.ifThen test yes (some no) span).ReadsBack := by
  refine .of_opening "if" .ifStmt (by decide) (fun rest => ?_) rfl (fun _ => rfl) fun rest hrest => ?_
  · rw [Stmt.write]
    exact ⟨'(' :: test.write (')' :: yes.write (lexeme "else " (no.write rest))), rfl, parts_cons rfl⟩
  · rw [Stmt.write]
    have helse : Stands (lexeme "else " (no.write rest)) :=
      (starts_keyword (by decide : "else" ∈ keywords) (' ' :: no.write rest)).stands
    exact reads_if span htest hblock hyes helse (reads_otherwise hkind hno hrest)

theorem readsBack_whileDo {test : Expr} {body : Stmt} (span : Span) (htest : test.ReadsBack)
    (hblock : body.isBlock = true) (hbody : body.ReadsBraced) : (Stmt.whileDo test body span).ReadsBack := by
  refine .of_opening "while" .whileStmt (by decide) (fun rest => ?_) rfl nofun fun rest _ => ?_
  · rw [Stmt.write]
    exact ⟨'(' :: test.write (')' :: body.write rest), rfl, parts_cons rfl⟩
  · rw [Stmt.write]
    refine .node (.inl rfl) (by decide) (.silent_seq (reads_word "while" _)
      (skips_none (stands_cons rfl (by decide)))
      (reads_condition htest (stands_body hblock _) (hbody.block rest))) fun inner parts hparts => ?_
    obtain ⟨_, _, rfl, ⟨part, rfl, t, ht, htbare⟩, other, rfl, b, hb, hbbare⟩ := hparts
    refine ⟨.stmt (.whileDo t b inner), node_eq_ok ?_, .of_stmt (by rw [Stmt.bare, Stmt.bare, htbare, hbbare])⟩
    simp [ht, hb]

/-- A `try` is read back with the name that its handler binds. -/
theorem readsBack_tryCatch {body handler : Stmt} {name : String} (span : Span) (hblock : body.isBlock = true)
    (hbody : body.ReadsBraced) (hname : IsName name) (hhandler : handler.isBlock = true)
    (hcaught : handler.ReadsBraced) : (Stmt.tryCatch body name handler span).ReadsBack := by
  refine .of_opening "try" .tryStmt (by decide) (fun rest => ?_) rfl nofun fun rest _ => ?_
  · rw [Stmt.write]
    refine ⟨_, rfl, fun c hc => ?_⟩
    rw [head_write_of_isBlock hblock] at hc
    obtain rfl := Option.some.inj hc
    rfl
  · rw [Stmt.write]
    have hcatch : Stands (lexeme "catch(" (lexeme name (')' :: handler.write rest))) :=
      (starts_keyword (by decide : "catch" ∈ keywords) ('(' :: lexeme name (')' :: handler.write rest))).stands
    have hclose : Closes (')' :: handler.write rest) := closes_cons (by simp)
    refine .node (.inl rfl) (by decide) (.silent_seq (reads_word "try" _) (skips_none (stands_body hblock _))
      (.seq (hbody.block _) (skips_none hcatch) (.silent_seq (reads_word "catch" _)
        (skips_none (stands_cons rfl (by decide))) (.silent_seq (reads_word "(" _)
          (skips_none (starts_name hname _).stands) (.seq (reads_name hname hclose.parts) (skips_none hclose.stands)
            (.silent_seq (reads_word ")" _) (skips_none (stands_body hhandler _)) (hcaught.block rest)))))))
      fun inner parts hparts => ?_
    obtain ⟨_, _, rfl, ⟨part, rfl, b, hb, hbbare⟩, _, _, rfl, ⟨at_, rfl⟩, other, rfl, h, hh, hhbare⟩ := hparts
    refine ⟨.stmt (.tryCatch b name h inner), node_eq_ok ?_, .of_stmt (by rw [Stmt.bare, Stmt.bare, hbbare, hhbare])⟩
    simp [hb, hh]

end DurableFlow.Script
