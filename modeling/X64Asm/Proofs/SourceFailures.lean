import X64Asm.Proofs.EncodingFailure
import X64Asm.Proofs.ReportPlaces
import X64Asm.Proofs.Sessions
import X64Asm.Proofs.SplitSource

/-! # Failures of source texts

A text fails in one of two ways (`Assembler.emit_failed`).

* It is not read as a listing, or it is too long.  Nothing has been done by then, so the assembler is
  as it was.
* It is read, and one of its entries fails: an instruction without a form, or a limit that is passed.

What a text spells is well formed.  The readers let no operand through that cannot be written down
(`Listing.written_of_parse`), and such operands can be encoded, so no failure of the second kind is
about a register or a displacement. -/

namespace X64Asm

/-! ### Instructions of a text -/

theorem Grammar.Argument.written {ts : List Token} {op : Operand} (h : Argument ts op) :
    op.Written := by
  cases h with
  | register _ named => exact .register named
  | number => exact .constant _
  | memory _ inside _ =>
      cases inside with
      | register _ named => exact .base named
      | number => exact .displacement _

/-- A clause that spells an instruction is a mnemonic and its operands. -/
theorem Grammar.Clause.of_instruction {word mnemonic : String} {ts : List Token}
    {operands : List Operand} (h : Clause word ts (.instruction mnemonic operands)) :
    mnemonic = word ∧ mnemonic ∉ keywords ∧
      (ts = [] ∧ operands = [] ∨ Separated .comma Argument ts operands) := by
  cases h with
  | instruction mnemonic arguments => exact ⟨rfl, mnemonic, .inr arguments⟩
  | bare mnemonic => exact ⟨rfl, mnemonic, .inl ⟨rfl, rfl⟩⟩

/-- An instruction of a line is a clause of it. -/
theorem Grammar.Line.exists_clause {ts : List Token} {sts : List Statement} (h : Line ts sts)
    {mnemonic : String} {operands : List Operand} (hmem : .instruction mnemonic operands ∈ sts) :
    ∃ word ∈ ts, word.kind = .ident ∧
      ∃ us, Clause word.text.toLower us (.instruction mnemonic operands) := by
  induction h with
  | empty => cases hmem
  | label _ _ ih =>
      rcases List.mem_cons.mp hmem with heq | hmem
      · cases heq
      · obtain ⟨word, hword, hclause⟩ := ih hmem
        exact ⟨word, List.mem_cons_of_mem _ hword, hclause⟩
  | clause kind rest =>
      cases List.mem_singleton.mp hmem
      exact ⟨_, List.mem_cons_self, kind, _, rest⟩

/-- An instruction among the contents is one of the statements. -/
theorem mem_of_contentsFrom {earlier sts : List Statement} {name : String} {i : Instruction}
    (hi : (name, .instruction i) ∈ contentsFrom earlier sts) :
    .instruction i.mnemonic i.operands ∈ sts := by
  induction sts generalizing earlier with
  | nil => cases hi
  | cons st sts ih =>
      rcases List.mem_append.mp hi with hi | hi
      · obtain ⟨e, he, heq⟩ := List.mem_map.mp hi
        cases heq
        cases st with
        | instruction mnemonic operands =>
            cases List.mem_singleton.mp he
            exact List.mem_cons_self
        | label name => cases List.mem_singleton.mp he
        | data values => simp [Statement.entries] at he
        | mode bits => cases he
        | enter name => cases he
        | imports names => cases he
        | exports names => cases he
      · exact List.mem_cons_of_mem _ (ih hi)

/-- The instructions of a text are clauses of it. -/
theorem Listing.exists_clause_of_parse {source : String} {l : Listing} (h : parse source = .ok l)
    {i : Instruction} (hi : .instruction i ∈ l.entries) :
    ∃ tokens, tokenize source = .ok tokens ∧ ∃ word ∈ tokens, word.kind = .ident ∧
      ∃ us, Grammar.Clause word.text.toLower us (.instruction i.mnemonic i.operands) := by
  obtain ⟨tokens, htokens, hl⟩ := bind_eq_ok.mp h
  obtain ⟨sts, hsts, rfl⟩ := map_eq_ok.mp hl
  obtain ⟨ahead, eof, rfl, heof, hahead⟩ := scan_ends htokens
  obtain ⟨lines, hlines, rfl⟩ := (readStatements_eq_ok_iff hahead heof).mp hsts
  rw [← map_contents, (ofStatements_contents _).1] at hi
  obtain ⟨⟨name, e⟩, he, rfl⟩ := List.mem_map.mp hi
  obtain ⟨line, hline, hmem⟩ := List.mem_flatten.mp (mem_of_contentsFrom he)
  obtain ⟨ts, hts, hline⟩ := hlines.exists_item line hline
  obtain ⟨word, hword, hclause⟩ := hline.exists_clause hmem
  exact ⟨_, htokens, word, List.mem_append_left _ (hts hword), hclause⟩

/-- All instructions of a text have operands that can be written down. -/
theorem Listing.written_of_parse {source : String} {l : Listing} (h : parse source = .ok l)
    {i : Instruction} (hi : .instruction i ∈ l.entries) : i.Written := by
  obtain ⟨_, _, _, _, _, _, hclause⟩ := exists_clause_of_parse h hi
  obtain ⟨_, _, ⟨_, hnone⟩ | harguments⟩ := hclause.of_instruction
  · intro op hop
    rw [hnone] at hop
    cases hop
  · intro op hop
    obtain ⟨_, _, hargument⟩ := harguments.exists_item op hop
    exact hargument.written

/-! ### Reports -/

namespace Diagnostic

/-- The report is about the text as such: it is no program, or too long. -/
def OfText : Diagnostic → Prop
  | malformed _ _ | dataOverflow _ _ _ => True
  | limitExceeded resource _ => resource = Resource.sourceBytes.render
  | noEncoding _ | unknownRegister _ | missingDisplacement _ | unsupportedNode _ => False

/-- The report is about an entry of a program: it has no encoding, or passes one of the limits. -/
inductive OfEntry (limits : Limits) : Diagnostic → Prop
  | encoding (instruction : String) : OfEntry limits (.noEncoding instruction)
  | statements : OfEntry limits (.exhausted .statements limits.statements)
  | labels : OfEntry limits (.exhausted .labels limits.labels)
  | outputBytes : OfEntry limits (.exhausted .outputBytes limits.outputBytes)

/-- The report is about a value that was handed over, and not about a program. -/
def OfValue : Diagnostic → Prop
  | unknownRegister _ | missingDisplacement _ | unsupportedNode _ => True
  | malformed _ _ | dataOverflow _ _ _ | limitExceeded _ _ | noEncoding _ => False

variable {d : Diagnostic} {limits : Limits}

theorem ofText_of_span? {span : Span} (h : d.span? = some span) : d.OfText := by
  cases d with
  | malformed message span => trivial
  | dataOverflow value size span => trivial
  | noEncoding i => cases h
  | unknownRegister name => cases h
  | missingDisplacement detail => cases h
  | unsupportedNode node => cases h
  | limitExceeded resource limit => cases h

theorem OfText.not_ofValue (h : d.OfText) : ¬ d.OfValue := by
  cases d <;> simp_all [OfText, OfValue]

theorem OfEntry.not_ofValue (h : d.OfEntry limits) : ¬ d.OfValue := by
  cases h <;> exact id

theorem isFatal_of_not_ofValue (h : ¬ d.OfValue) : d.isFatal = false := by
  cases d with
  | unknownRegister name => exact absurd trivial h
  | missingDisplacement detail => exact absurd trivial h
  | unsupportedNode node => exact absurd trivial h
  | noEncoding i => rfl
  | malformed message span => rfl
  | dataOverflow value size span => rfl
  | limitExceeded resource limit => rfl

theorem OfEntry.not_ofText (h : d.OfEntry limits) : ¬ d.OfText := by
  cases h with
  | encoding => exact id
  | statements => simp [OfText, exhausted, Resource.render]
  | labels => simp [OfText, exhausted, Resource.render]
  | outputBytes => simp [OfText, exhausted, Resource.render]

end Diagnostic

theorem Listing.ofText_of_parse {source : String} {d : Diagnostic} (h : parse source = .error d) :
    d.OfText := by
  rcases bind_eq_error.mp h with htokens | ⟨tokens, _, hl⟩
  · obtain ⟨_, _, _, _, bad, _, _, rfl⟩ := scan_error .start htokens
    trivial
  · obtain ⟨t, _, hspan⟩ := pointsInto_ofTokens tokens d hl
    exact Diagnostic.ofText_of_span? hspan

namespace Assembler

variable {s t : Assembler} {f : Failure}

theorem ofEntry_of_refused {e : SectionEntry} (h : s.Refused e ⟨t, some f⟩)
    (hwritten : ∀ i, e = .instruction i → i.Written) :
    ∃ d, f = .diagnostic d ∧ d.OfEntry s.options.limits := by
  cases h with
  | statements => exact ⟨_, rfl, .statements⟩
  | @encoding i f encode =>
      rcases (hwritten i rfl).encode_cases s.options.imm16 with hform | ⟨buf, hbuf⟩
      · cases encode.symm.trans hform
        exact ⟨_, rfl, .encoding _⟩
      · exact nomatch encode.symm.trans hbuf
  | output => exact ⟨_, rfl, .outputBytes⟩
  | labels => exact ⟨_, rfl, .labels⟩

/-- A run over entries that can be written down fails for an entry. -/
theorem ofEntry_of_run {actions : List Action} (h : s.run actions = ⟨t, some f⟩)
    (hwritten : ∀ i, .instruction i ∈ actions.filterMap Action.entry? → i.Written) :
    ∃ d, f = .diagnostic d ∧ d.OfEntry s.options.limits := by
  obtain ⟨k, action, middle, hk, hrun, hfailed⟩ := run_failed h
  cases action with
  | enter name count => cases hfailed
  | declare name kind => cases hfailed
  | entry e =>
      have he : e ∈ actions.filterMap Action.entry? :=
        List.mem_filterMap.mpr ⟨_, List.mem_of_getElem? hk, rfl⟩
      rw [← options_run hrun]
      apply ofEntry_of_refused (refused_addEntry hfailed)
      rintro i rfl
      exact hwritten i he

theorem sourceActions_eq_ok {source : String} {actions : List Action}
    (h : s.sourceActions source = .ok actions) :
    ∃ l, Listing.parse source = .ok l ∧ l.actions = actions := by
  unfold sourceActions at h
  split at h
  · cases h
  · exact map_eq_ok.mp h

theorem ofText_of_sourceActions {source : String} {d : Diagnostic}
    (h : s.sourceActions source = .error d) : d.OfText := by
  unfold sourceActions at h
  split at h
  · cases h
    rfl
  · cases hparse : Listing.parse source with
    | error d' =>
        rw [hparse] at h
        cases h
        exact Listing.ofText_of_parse hparse
    | ok l =>
        rw [hparse] at h
        cases h

/-- A text that fails is reported either as a text, and then nothing has changed, or for one of its
entries, and then it has been read.  It is never reported for a value that no text spells. -/
theorem emit_failed {source : String} (h : s.emit source = ⟨t, some f⟩) :
    ∃ d, f = .diagnostic d ∧ ¬ d.OfValue ∧ d.isFatal = false ∧ (d.OfText → t = s) ∧
      (¬ d.OfText → d.OfEntry s.options.limits ∧
        ∃ tokens l, tokenize source = .ok tokens ∧ Listing.ofTokens tokens = .ok l) := by
  unfold emit at h
  cases hactions : s.sourceActions source with
  | error d =>
      rw [hactions] at h
      cases h
      have htext := ofText_of_sourceActions hactions
      have hvalue := htext.not_ofValue
      exact ⟨d, rfl, hvalue, Diagnostic.isFatal_of_not_ofValue hvalue, fun _ => rfl,
        fun hnot => absurd htext hnot⟩
  | ok actions =>
      rw [hactions] at h
      obtain ⟨l, hl, rfl⟩ := sourceActions_eq_ok hactions
      have hwritten : ∀ i, .instruction i ∈ l.actions.filterMap Action.entry? → i.Written := by
        intro i hi
        rw [l.filterMap_actions] at hi
        exact Listing.written_of_parse hl hi
      obtain ⟨d, rfl, hentry⟩ := ofEntry_of_run h hwritten
      have hvalue := hentry.not_ofValue
      obtain ⟨tokens, htokens, hlisting⟩ := bind_eq_ok.mp hl
      exact ⟨d, rfl, hvalue, Diagnostic.isFatal_of_not_ofValue hvalue,
        fun htext => absurd htext hentry.not_ofText,
        fun _ => ⟨hentry, tokens, l, htokens, hlisting⟩⟩

/-- An assembler that has been used and takes one more statement. -/
def nearlyFull : Assembler where
  options := { limits := { statements := 2 } }
  code := #[0x50]
  statementCount := 1

/-- A text whose second line is at fault leaves the assembler as it was.  In a text with one statement
too many the first one has been assembled. -/
theorem emit_failed_nearlyFull :
    (∃ t d, nearlyFull.emit "a: push rax\nmov [0x100000000], rax" = ⟨t, some (.diagnostic d)⟩ ∧
      d.OfText ∧ t = nearlyFull) ∧
    ∃ t d, nearlyFull.emit "push rbx\nadd rax, 1" = ⟨t, some (.diagnostic d)⟩ ∧
      t.code = #[0x50, 0x53] ∧ d.OfEntry nearlyFull.options.limits := by
  have htext : nearlyFull.emit "a: push rax\nmov [0x100000000], rax" =
      ⟨_, some (.diagnostic (.malformed "displacement 4294967296 does not fit in 32 bits"
        { line := 2, col := 6, offset := 17, len := 11 }))⟩ :=
    congrArg (Outcome.mk _) (by decide +kernel)
  have hentry : nearlyFull.emit "push rbx\nadd rax, 1" =
      ⟨_, some (.diagnostic (.exhausted .statements 2))⟩ :=
    congrArg (Outcome.mk _) (by decide +kernel)
  constructor
  · obtain ⟨_, ⟨⟩, _, _, hsame, _⟩ := emit_failed htext
    exact ⟨_, _, htext, trivial, hsame trivial⟩
  · obtain ⟨_, ⟨⟩, _, _, _, hread⟩ := emit_failed hentry
    have hresource : ¬ (Diagnostic.exhausted .statements 2).OfText := by
      simp [Diagnostic.OfText, Diagnostic.exhausted, Resource.render]
    exact ⟨_, _, hentry, by decide +kernel, (hread hresource).1⟩

end Assembler

end X64Asm
