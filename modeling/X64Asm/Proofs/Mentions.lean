import X64Asm.Proofs.Grammar
import X64Asm.Proofs.Pieces
import X64Asm.SymbolTable

/-! # Names in a source text

A name comes up where a label is defined, and where it is imported or exported.  These places, and
those where a section begins, are the marks of a text (`Mark`).  Tokens, statements and the actions of
an assembler have marks, and which names they define or declare is read off these.

`sourceMarks` finds the marks among the tokens, line by line.  The statements that the tokens spell
have the same ones (`marks_of_readStatements`). -/

namespace X64Asm

/-- What is said about names and sections. -/
inductive Mark where
  /-- A label is defined. -/
  | label (name : String)
  /-- A name is imported or exported. -/
  | declared (name : String) (kind : SymbolKind)
  /-- A section begins. -/
  | enter
  deriving DecidableEq, Repr

namespace Mark

/-- The name that comes up. -/
def name? : Mark → Option String
  | label name | declared name _ => some name
  | enter => none

/-- The name that is defined as a label. -/
def label? : Mark → Option String
  | label name => some name
  | declared _ _ | enter => none

/-- The name that is declared, and the kind that it is declared to be. -/
def declaration? : Mark → Option (String × SymbolKind)
  | declared name kind => some (name, kind)
  | label _ | enter => none

end Mark

/-! ### Marks of tokens -/

/-- The names among the tokens. -/
def identifiers (tokens : List Token) : List String :=
  (tokens.filter (·.kind = .ident)).map (·.text)

/-- What a word says about the names that follow it. -/
def wordMarks (word : String) (names : List String) : List Mark :=
  if word = "extern" then names.map (.declared · .imported)
  else if word = "global" then names.map (.declared · .exported)
  else if word = "section" ∨ word = "segment" then [.enter]
  else []

/-- What the tokens of a line say: labels come first, then a word with what belongs to it. -/
def lineMarks : List Token → List Mark
  | [] => []
  | t :: ts =>
    match t.kind with
    | .labelDef => .label t.text :: lineMarks ts
    | .ident => wordMarks t.text.toLower (identifiers ts)
    | _ => []

/-- What a token sequence says, up to its first end mark. -/
def sourceMarks (tokens : List Token) : List Mark :=
  ((tokens.takeWhile (·.kind ≠ .eof)).splitOnP (·.kind = .newline)).flatMap lineMarks

/-! ### Marks of statements -/

namespace Statement

/-- What a statement says. -/
def marks : Statement → List Mark
  | label name => [.label name]
  | enter _ => [.enter]
  | imports names => names.map (.declared · .imported)
  | exports names => names.map (.declared · .exported)
  | mode _ | data _ | instruction _ _ => []

/-- The labels that a statement defines. -/
def labels (st : Statement) : List String := st.marks.filterMap Mark.label?

/-- What a statement declares. -/
def declared (st : Statement) : List (String × SymbolKind) := st.marks.filterMap Mark.declaration?

section declarations

variable (names : List String)

@[simp] theorem labels_imports : (imports names).labels = [] := by
  simp [labels, marks, Mark.label?]

@[simp] theorem labels_exports : (exports names).labels = [] := by
  simp [labels, marks, Mark.label?]

@[simp] theorem declared_imports : (imports names).declared = names.map (·, .imported) := by
  simp [declared, marks, Mark.declaration?, List.filterMap_map, Function.comp_def]

@[simp] theorem declared_exports : (exports names).declared = names.map (·, .exported) := by
  simp [declared, marks, Mark.declaration?, List.filterMap_map, Function.comp_def]

end declarations

theorem mem_labels {st : Statement} {name : String} : name ∈ st.labels ↔ st = .label name := by
  cases st with
  | label other => simp [labels, marks, Mark.label?, eq_comm]
  | imports names => simp
  | exports names => simp
  | mode bits => simp [labels, marks]
  | enter other => simp [labels, marks, Mark.label?]
  | data values => simp [labels, marks]
  | instruction mnemonic operands => simp [labels, marks]

end Statement

namespace Grammar

variable {ts : List Token}

theorem identifiers_append (ts us : List Token) :
    identifiers (ts ++ us) = identifiers ts ++ identifiers us := by
  simp [identifiers]

theorem identifiers_cons_of_ne {t : Token} (h : t.kind ≠ .ident) (ts : List Token) :
    identifiers (t :: ts) = identifiers ts := by
  simp [identifiers, h]

theorem Name.identifiers_eq {name : String} (h : Name ts name) : identifiers ts = [name] := by
  cases h with
  | ident kind => simp [identifiers, kind]

/-- The names in a list are the identifiers in it. -/
theorem identifiers_of_names {names : List String} (h : Separated .comma Name ts names) :
    identifiers ts = names := by
  induction h with
  | last item => exact item.identifiers_eq
  | cons item kind _ ih =>
      rw [identifiers_append, item.identifiers_eq, identifiers_cons_of_ne (by simp [kind]), ih]
      rfl

theorem wordMarks_of_mnemonic {word : String} (h : word ∉ keywords) (names : List String) :
    wordMarks word names = [] := by
  simp only [keywords, List.mem_cons, List.not_mem_nil, or_false, not_or] at h
  simp [wordMarks, h]

/-- A clause says about names what its word says about the identifiers behind it. -/
theorem Clause.marks_eq {word : String} {st : Statement} (h : Clause word ts st) :
    wordMarks word (identifiers ts) = st.marks := by
  cases h with
  | mode => rfl
  | enter keyword =>
      rcases keyword with rfl | rfl
      · rfl
      · rfl
  | exports arguments =>
      rw [identifiers_of_names arguments]
      rfl
  | imports arguments =>
      rw [identifiers_of_names arguments]
      rfl
  | data keyword =>
      simp only [List.mem_cons, Prod.mk.injEq, List.not_mem_nil, or_false] at keyword
      rcases keyword with ⟨rfl, _⟩ | ⟨rfl, _⟩ | ⟨rfl, _⟩ | ⟨rfl, _⟩ <;> rfl
  | instruction mnemonic => exact wordMarks_of_mnemonic mnemonic _
  | bare mnemonic => exact wordMarks_of_mnemonic mnemonic _

theorem Line.marks_eq {sts : List Statement} (h : Line ts sts) :
    lineMarks ts = sts.flatMap Statement.marks := by
  induction h with
  | empty => rfl
  | label kind _ ih =>
      rw [lineMarks, kind, ih]
      rfl
  | clause kind rest =>
      rw [lineMarks, kind, List.flatMap_singleton]
      exact rest.marks_eq

/-- Lines say what their statements say. -/
theorem marks_of_lines {lines : List (List Statement)} (h : Separated .newline Line ts lines) :
    (ts.splitOnP (·.kind = .newline)).flatMap lineMarks =
      lines.flatten.flatMap Statement.marks := by
  have hfree : ∀ {ts : List Token} {sts : List Statement}, Line ts sts →
      ∀ t ∈ ts, decide (t.kind = .newline) = false :=
    fun hline t ht => decide_eq_false (hline.newline_free t ht)
  induction h with
  | last item =>
      rw [List.splitOnP_eq_singleton (hfree item), List.flatMap_singleton, item.marks_eq,
        List.flatten_singleton]
  | cons item kind _ ih =>
      rw [List.splitOnP_append_cons_of_forall_mem (hfree item) _ (decide_eq_true kind),
        List.flatMap_cons, ih, item.marks_eq, List.flatten_cons, List.flatMap_append]

end Grammar

/-- What the statements of a source text say about names is what its tokens say. -/
theorem marks_of_readStatements {source : String} {tokens : List Token} {sts : List Statement}
    (htokens : tokenize source = .ok tokens) (h : readStatements tokens = .ok sts) :
    sourceMarks tokens = sts.flatMap Statement.marks := by
  obtain ⟨ts, eof, rfl, heof, hts⟩ := scan_ends htokens
  obtain ⟨lines, hlines, rfl⟩ := (readStatements_eq_ok_iff hts heof).mp h
  have hahead : (ts ++ [eof]).takeWhile (·.kind ≠ .eof) = ts := by
    rw [List.takeWhile_append_of_pos (by simpa using hts)]
    simp [heof]
  rw [sourceMarks, hahead, Grammar.marks_of_lines hlines]

end X64Asm
