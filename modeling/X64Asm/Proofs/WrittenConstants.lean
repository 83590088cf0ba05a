import X64Asm.Proofs.ConstantLayouts
import X64Asm.Proofs.NumberTokens
import X64Asm.Proofs.SourceFailures
import X64Asm.Proofs.SymbolOrder

/-! # Constants from text to code

A number that is written as an operand of an instruction is the number at the end of its code
(`Assembler.emit_constant`).  On the way it becomes a token, a constant of 64 bits, a constant as narrow
as can be, a wider one that some form takes, and one, two or four bytes.

* A line that begins with a mnemonic is read as one instruction or is reported
  (`Listing.parse_of_mnemonic`), and a number in it that is not in brackets is one of the operands
  (`Grammar.Separated.of_number`).
* The code of an instruction ends with its constant (`Instruction.encode_constant`). -/

namespace X64Asm

open Grammar

/-! ### The constant in the code -/

/-- The bytes of a constant come to its value, in either layout. -/
theorem Immediate.toInt_bytes (imm : Immediate) (layout : Imm16Layout) :
    Bytes.toInt (imm.bytes layout) = imm.value := by
  have hfits := imm.fits_width
  cases imm with
  | imm8 v =>
      rw [bytes, ← littleEndianInt_one]
      exact Bytes.toInt_littleEndianInt (by decide) hfits
  | imm16 v =>
      cases layout with
      | fourBytes =>
          have hcount : (wordCount (8 * 4 - 1) : Int) = 2 ^ 31 := rfl
          have hleast : -(2 ^ 15) ≤ v.toInt := v.le_toInt
          have hmost : v.toInt < 2 ^ 15 := v.toInt_lt
          have hwide : FitsSigned (8 * 4) v.toInt := by
            rw [FitsSigned, hcount]
            omega
          exact Bytes.toInt_littleEndianInt (by decide) hwide
      | twoBytes => exact Bytes.toInt_littleEndianInt (by decide) hfits
  | imm32 v => exact Bytes.toInt_littleEndianInt (by decide) hfits
  | imm64 v => exact Bytes.toInt_littleEndianInt (by decide) hfits

theorem Immediate.length_bytes {imm : Immediate} (h : imm.width ≠ .qword) (layout : Imm16Layout) :
    (imm.bytes layout).length ∈ [1, 2, 4] := by
  cases imm with
  | imm8 v => simp [bytes]
  | imm16 v => cases layout <;> simp [bytes, Bytes.length_littleEndianInt]
  | imm32 v => simp [bytes, Bytes.length_littleEndianInt]
  | imm64 v => exact absurd rfl h

theorem immediate_mem_of_widens {ops wider : List Operand} {imm : Immediate}
    (h : List.Forall₂ Operand.Widens ops wider) (himm : .immediate imm ∈ ops) :
    ∃ imm', .immediate imm' ∈ wider ∧ imm'.value = imm.value := by
  induction h with
  | nil => cases himm
  | cons hop _ ih =>
      rcases List.mem_cons.mp himm with rfl | himm
      · cases hop with
        | refl => exact ⟨imm, List.mem_cons_self, rfl⟩
        | constant same _ => exact ⟨_, List.mem_cons_self, same⟩
      · obtain ⟨imm', hmem, hvalue⟩ := ih himm
        exact ⟨imm', List.mem_cons_of_mem _ hmem, hvalue⟩

/-- The code of an instruction ends with the constant among its operands. -/
theorem Instruction.encode_constant {i : Instruction} {layout : Imm16Layout}
    {buf : InstructionBuffer} {value : Int64} (h : i.encode layout = .ok buf)
    (hmem : .constant value ∈ i.operands) :
    ∃ front field, buf.toList = front ++ field ∧ field.length ∈ [1, 2, 4] ∧
      Bytes.toInt field = value.toInt := by
  obtain ⟨sel, hsel, _⟩ := bind_eq_ok.mp h
  rw [mapError_eq_ok] at hsel
  obtain ⟨haccepts, ⟨_, _, hall, _⟩, hwidens⟩ := select_spec hsel
  obtain ⟨entry, hentry, _, _, _, hforms, _⟩ := form_mem_table hsel
  obtain ⟨_, hshort, _⟩ := table_longest entry hentry sel.form (by simp [hforms])
  have hform : sel.form ∈ Form.all i.mnemonic := by simp [hall]
  have hone := constantCount_le_one hform haccepts (List.forall₂_refl sel.operands)
  obtain ⟨imm, himm, hvalue⟩ := immediate_mem_of_widens hwidens hmem
  have hbytes := map_toList_encode hsel layout
  rw [h] at hbytes
  obtain ⟨extension, _, hbytes⟩ := bind_eq_ok.mp hbytes.symm
  obtain ⟨code, _, hbytes⟩ := bind_eq_ok.mp hbytes
  rw [Placement.immediate?_eq_some hone himm] at hbytes
  refine ⟨_, imm.bytes layout, (Except.ok.inj hbytes).symm, ?_, ?_⟩
  · exact Immediate.length_bytes (Form.width_ne_qword haccepts hshort himm) layout
  · rw [imm.toInt_bytes, hvalue, Immediate.value_fit]

/-! ### The number in the line -/

namespace Grammar

variable {ts before after : List Token} {t : Token} {v : Int}

/-- A number that is not in brackets fills the argument. -/
theorem Argument.of_number {op : Operand} (h : Argument ts op) (hts : ts = before ++ t :: after)
    (hkind : t.kind = .number v) (hopen : ∀ u ∈ before.getLast?, u.kind ≠ .openBracket) :
    after = [] ∧ -(wordCount 63 : Int) ≤ v ∧ v < wordCount 64 ∧
      op = .constant (Int64.ofInt v) := by
  cases h with
  | register kind named =>
      rcases before with _ | ⟨b, before⟩
      · cases hts
        rw [kind] at hkind
        cases hkind
      · simp at hts
  | number kind least most =>
      rcases before with _ | ⟨b, before⟩
      · cases hts
        rw [kind] at hkind
        cases hkind
        exact ⟨rfl, least, most, rfl⟩
      · simp at hts
  | memory opened inside closed =>
      rcases before with _ | ⟨b, _ | ⟨c, _ | ⟨d, before⟩⟩⟩
      · cases hts
        rw [opened] at hkind
        cases hkind
      · cases hts
        exact absurd opened (hopen _ rfl)
      · cases hts
        rw [closed] at hkind
        cases hkind
      · simp at hts

/-- A number among arguments that is not in brackets is one of them, and a comma follows or
nothing. -/
theorem Separated.of_number {ops : List Operand} (h : Separated .comma Argument ts ops)
    (hts : ts = before ++ t :: after) (hkind : t.kind = .number v)
    (hopen : ∀ u ∈ before.getLast?, u.kind ≠ .openBracket) :
    (∀ u ∈ after.head?, u.kind = .comma) ∧ -(wordCount 63 : Int) ≤ v ∧ v < wordCount 64 ∧
      .constant (Int64.ofInt v) ∈ ops := by
  induction h generalizing before with
  | last item =>
      obtain ⟨rfl, hleast, hmost, rfl⟩ := item.of_number hts hkind hopen
      refine ⟨?_, hleast, hmost, List.mem_singleton_self _⟩
      rintro u ⟨⟩
  | @cons ts rest comma a as item kind _ ih =>
      have hne : t ≠ comma := by
        rintro rfl
        rw [kind] at hkind
        cases hkind
      rcases List.append_eq_append_iff.mp hts with ⟨l, rfl, hrest⟩ | ⟨l, hitem, hrest⟩
      · -- the number stands behind the first comma
        rcases List.cons_eq_append_iff.mp hrest with ⟨_, hcons⟩ | ⟨l, rfl, hbehind⟩
        · exact absurd (List.cons.inj hcons).1 hne
        · have hlast : ∀ u ∈ l.getLast?, u.kind ≠ .openBracket := by
            intro u hu
            refine hopen u ?_
            rw [Option.mem_def] at hu ⊢
            simp [List.getLast?_cons, hu]
          obtain ⟨hcomma, hleast, hmost, hmem⟩ := ih hbehind hlast
          exact ⟨hcomma, hleast, hmost, List.mem_cons_of_mem _ hmem⟩
      · rcases List.cons_eq_append_iff.mp hrest with ⟨_, hcons⟩ | ⟨l, rfl, rfl⟩
        · exact absurd (List.cons.inj hcons).1.symm hne
        · obtain ⟨rfl, hleast, hmost, rfl⟩ := item.of_number hitem hkind hopen
          refine ⟨?_, hleast, hmost, List.mem_cons_self⟩
          rintro u ⟨⟩
          exact kind

end Grammar

/-- A line that begins with a mnemonic is read as an instruction with the operands behind it. -/
theorem readStatements_of_mnemonic {word eof : Token} {args : List Token}
    (hargs : ∀ t ∈ args, t.kind ≠ .newline ∧ t.kind ≠ .eof) (heof : eof.kind = .eof)
    (hword : word.kind = .ident) (hfree : word.text.toLower ∉ keywords) :
    readStatements (word :: args ++ [eof]) =
      (Segment.operands ⟨args, eof⟩).map fun ops => [.instruction word.text.toLower ops] := by
  have hnewline : ∀ t ∈ word :: args, t.kind ≠ .newline := by
    rw [List.forall_mem_cons, hword]
    exact ⟨by simp, fun t ht => (hargs t ht).1⟩
  have hend : ∀ t ∈ word :: args, t.kind ≠ .eof := by
    rw [List.forall_mem_cons, hword]
    exact ⟨by simp, fun t ht => (hargs t ht).2⟩
  have hline : Segment.lineStatements eof (word :: args) =
      (Segment.operands ⟨args, eof⟩).map fun ops => [.instruction word.text.toLower ops] := by
    rw [Segment.lineStatements, hword]
    dsimp only
    rw [Segment.statement, Segment.keyword_eq_none_iff.mpr hfree]
    cases Segment.operands ⟨args, eof⟩ <;> rfl
  rw [readStatements, Segment.ofTokens?_append_eof hend heof]
  dsimp only
  rw [Segment.statements, Segment.splitOn_of_free hnewline, List.mapM_cons, hline]
  cases Segment.operands ⟨args, eof⟩ <;> rfl

/-! ### The tokens of the line -/

/-- The text is one line with an instruction, and a number stands in it as an operand: behind the
mnemonic and some other tokens, and not in brackets. -/
structure NumberLine (source : String) (lit : Literal) (word : Token) (earlier : List Token)
    (pre rest : List Char) : Prop where
  oneLine : '\n' ∉ source.toList
  reached : Reached source (word :: earlier) pre (lit.chars ++ rest)
  stops : Stops rest
  name : word.kind = .ident
  mnemonic : word.text.toLower ∉ keywords
  unbracketed : ∀ t ∈ earlier.getLast?, t.kind ≠ .openBracket

theorem newline_free_of_tokenize {source : String} {tokens : List Token}
    (h : tokenize source = .ok tokens) (hline : '\n' ∉ source.toList) :
    ∀ t ∈ tokens, t.kind ≠ .newline := by
  intro t ht hkind
  obtain ⟨_, pre, cs, hreached, _, heof | ⟨c, ds, piece, rfl, hpiece, hpieceKind, _⟩⟩ :=
    scan_token .start h ht
  · rw [hkind] at heof
    cases heof
  · rw [hkind] at hpieceKind
    have hc : c = '\n' := (Piece.kind_of_read hpiece).2.2 hpieceKind
    apply hline
    rw [hreached.append, hc]
    simp

/-- A text of one line that begins with a mnemonic has the listing of an instruction, if its operands
are read. -/
theorem Listing.parse_of_mnemonic {source : String} {word eof : Token} {args : List Token}
    (htokens : tokenize source = .ok (word :: args ++ [eof])) (hline : '\n' ∉ source.toList)
    (hword : word.kind = .ident) (hfree : word.text.toLower ∉ keywords) :
    eof.kind = .eof ∧ parse source = (Segment.operands ⟨args, eof⟩).map
      fun ops => ⟨[.sectionBlock "" [.instruction ⟨64, word.text.toLower, ops⟩]]⟩ := by
  obtain ⟨ahead, eof', heq, heof, hahead⟩ := scan_ends htokens
  obtain ⟨rfl, hlast⟩ := List.append_inj' heq rfl
  cases hlast
  have hargs : ∀ t ∈ args, t.kind ≠ .newline ∧ t.kind ≠ .eof := by
    intro t ht
    have hmem : t ∈ word :: args := List.mem_cons_of_mem _ ht
    exact ⟨newline_free_of_tokenize htokens hline t (List.mem_append_left _ hmem), hahead t hmem⟩
  refine ⟨heof, ?_⟩
  unfold parse
  rw [htokens]
  show ofTokens (word :: args ++ [eof]) = _
  rw [ofTokens, readStatements_of_mnemonic hargs heof hword hfree]
  cases Segment.operands ⟨args, eof⟩ <;> rfl

/-- A letter or a digit begins a name or a number. -/
theorem Piece.kind_of_isAlphanum {c : Char} {cs : List Char} {piece : Piece}
    (hc : c.isAlphanum = true) (h : read c cs = .ok piece) :
    ∃ kind, piece.kind = some kind ∧ kind ≠ .comma ∧ kind ≠ .eof := by
  have hcases : (c.isAlpha || c.isDigit) = true := hc
  rw [Bool.or_eq_true] at hcases
  rcases hcases with halpha | hdigit
  · have hstart : isIdentStart c = true := by
      rw [isIdentStart, halpha]
      rfl
    rw [read_of_isIdentStart hstart] at h
    cases h
    rcases kind_readName c cs with hkind | hkind
    · exact ⟨_, hkind, by simp, by simp⟩
    · exact ⟨_, hkind, by simp, by simp⟩
  · rw [read_of_isDigit hdigit, readNumber] at h
    split at h
    · cases h
      exact ⟨_, rfl, by simp, by simp⟩
    · cases h

theorem scan_of_isAlphanum {c : Char} {cs : List Char} {p : Position} {tokens : List Token}
    (hc : c.isAlphanum = true) (h : scan p (c :: cs) = .ok tokens) :
    ∃ t ts, tokens = t :: ts ∧ t.kind ≠ .comma ∧ t.kind ≠ .eof := by
  cases hpiece : Piece.read c cs with
  | error bad =>
      rw [scan, hpiece] at h
      cases h
  | ok piece =>
      obtain ⟨kind, hkind, hcomma, heof⟩ := Piece.kind_of_isAlphanum hc hpiece
      rw [scan_of_read hpiece, Piece.token?, hkind] at h
      obtain ⟨ts, _, rfl⟩ := map_eq_ok.mp h
      exact ⟨_, ts, rfl, hcomma, heof⟩

/-- If the text is read, the number is followed by what is read behind it. -/
theorem ReadsNumber.exists_behind {source : String} {ahead tokens : List Token}
    {pre chars rest : List Char} {v : Int} (h : ReadsNumber source ahead pre chars rest v)
    (htokens : tokenize source = .ok tokens) :
    ∃ behind eof, tokens = ahead ++ numberToken pre chars v :: behind ++ [eof] ∧ eof.kind = .eof ∧
      scan (({} : Position).advance (pre ++ chars)) rest = .ok (behind ++ [eof]) := by
  have hscan := h.tokens
  rw [htokens] at hscan
  obtain ⟨tokens', htokens', rfl⟩ := map_eq_ok.mp hscan.symm
  obtain ⟨behind, eof, rfl, heof, _⟩ := scan_ends htokens'
  exact ⟨behind, eof, by simp, heof, htokens'⟩

namespace NumberLine

variable {source : String} {lit : Literal} {word : Token} {earlier : List Token}
  {pre rest : List Char}

/-- A number is one of the tokens.  If it has not the value that is written, another number or a name
follows without a gap. -/
theorem exists_number (h : NumberLine source lit word earlier pre rest) {tokens : List Token}
    (htokens : tokenize source = .ok tokens) :
    ∃ t v behind eof, tokens = word :: (earlier ++ t :: behind) ++ [eof] ∧ t.kind = .number v ∧
      (v = lit.value ∨ ∃ u ∈ behind.head?, u.kind ≠ .comma) := by
  have hnot : ¬ TokensRefused source := by
    rintro ⟨complaint, span, hrefused⟩
    rw [htokens] at hrefused
    cases hrefused
  by_cases hambiguous : lit.spelling.Ambiguous
  · obtain hrefused | ⟨shorter, c, cs, _, hc, hreads⟩ := h.reached.misread hambiguous
    · exact absurd hrefused hnot
    · obtain ⟨behind, eof, rfl, heof, hscan⟩ := hreads.exists_behind htokens
      obtain ⟨u, us, hbehind, hcomma, hend⟩ := scan_of_isAlphanum hc hscan
      refine ⟨numberToken pre shorter.chars shorter.value, shorter.value, behind, eof, rfl, rfl,
        .inr ?_⟩
      cases behind with
      | nil =>
          cases hbehind
          exact absurd heof hend
      | cons b behind =>
          cases hbehind
          exact ⟨_, rfl, hcomma⟩
  · obtain ⟨hreads, hrefused⟩ := h.reached.readsNumber_or_refused
      (Spelling.endsAhead_of_stops h.stops lit.spelling) hambiguous
    have hvalue : lit.spelling.magnitude < 2 ^ 127 :=
      Nat.lt_of_not_le fun hlarge => hnot (hrefused hlarge)
    obtain ⟨behind, eof, rfl, _⟩ := (hreads hvalue).exists_behind htokens
    exact ⟨numberToken pre lit.chars lit.value, lit.value, behind, eof, rfl, rfl, .inl rfl⟩

/-- The line is reported, or it is read as an instruction with the number among its operands. -/
theorem parse_cases (h : NumberLine source lit word earlier pre rest) :
    (∃ complaint span, Listing.parse source = .error (.complain complaint span)) ∨
      ∃ i : Instruction, Listing.parse source = .ok ⟨[.sectionBlock "" [.instruction i]]⟩ ∧
        -(wordCount 63 : Int) ≤ lit.value ∧ lit.value < wordCount 64 ∧
        .constant (Int64.ofInt lit.value) ∈ i.operands := by
  cases htokens : tokenize source with
  | error d =>
      obtain ⟨_, _, _, _, bad, _, _, rfl⟩ := scan_error .start htokens
      exact .inl ⟨bad.complaint, _, bind_eq_error.mpr (.inl htokens)⟩
  | ok tokens =>
      obtain ⟨t, v, behind, eof, rfl, hkind, hvalue⟩ := h.exists_number htokens
      obtain ⟨heof, hparse⟩ := Listing.parse_of_mnemonic htokens h.oneLine h.name h.mnemonic
      rw [hparse]
      cases hops : Segment.operands ⟨earlier ++ t :: behind, eof⟩ with
      | error d =>
          have hfails : FailsAt (fun _ d => ∃ complaint span, d = .complain complaint span) _
              (Segment.operands ⟨earlier ++ t :: behind, eof⟩) :=
            Segment.failsAt_operands (fun t complaint => ⟨complaint, t.span, rfl⟩) _
          obtain ⟨_, _, complaint, span, rfl⟩ := hfails d hops
          exact .inl ⟨complaint, span, rfl⟩
      | ok ops =>
          have hstop : Delimits eof := .inr (.inr heof)
          obtain ⟨hnone, _⟩ | harguments := (Segment.operands_eq_ok_iff hstop).mp hops
          · simp at hnone
          · obtain ⟨hcomma, hleast, hmost, hmem⟩ := harguments.of_number rfl hkind h.unbracketed
            obtain rfl | ⟨u, hu, hother⟩ := hvalue
            · exact .inr ⟨_, rfl, hleast, hmost, hmem⟩
            · exact absurd (hcomma u hu) hother

end NumberLine

namespace Assembler

variable {source : String} {lit : Literal} {word : Token} {earlier : List Token}
  {pre rest : List Char}

/-- A text that is assembled adds what the entries of its listing contribute. -/
theorem appends_of_emit {s t : Assembler} (h : s.emit source = ⟨t, none⟩) :
    ∃ l chunks, Listing.parse source = .ok l ∧ s.Appends t l.entries chunks := by
  obtain ⟨tokens, sts, htokens, hsts, hrun⟩ := run_of_emit h
  obtain ⟨chunks, happends⟩ := appends_of_run hrun
  rw [Listing.filterMap_actions] at happends
  exact ⟨_, chunks, bind_eq_ok.mpr ⟨tokens, htokens, map_eq_ok.mpr ⟨sts, hsts, rfl⟩⟩, happends⟩

/-- If a line with a number as an operand is assembled, the number is one of 64 bits, signed or
unsigned, and the code that is added ends with one, two or four bytes that are the same signed number
modulo `2 ^ 64`.  A number beyond 64 bits is reported. -/
theorem emit_constant (h : NumberLine source lit word earlier pre rest) :
    (∀ s t : Assembler, s.emit source = ⟨t, none⟩ →
      -(2 ^ 63) ≤ lit.value ∧ lit.value < 2 ^ 64 ∧
        ∃ front field, t.code.toList = s.code.toList ++ (front ++ field) ∧
          field.length ∈ [1, 2, 4] ∧ Bytes.toInt field % 2 ^ 64 = lit.value % 2 ^ 64) ∧
    (lit.value < -(2 ^ 63) ∨ 2 ^ 64 ≤ lit.value → ∃ complaint span,
      Listing.parse source = .error (.complain complaint span) ∧
        ∀ s : Assembler, source.utf8ByteSize ≤ s.options.limits.sourceBytes →
          s.emit source = s.report (.complain complaint span)) := by
  constructor
  · intro s t hemit
    obtain ⟨l, chunks, hl, happends⟩ := appends_of_emit hemit
    obtain ⟨complaint, span, hparse⟩ | ⟨i, hparse, hleast, hmost, hmem⟩ := h.parse_cases
    · rw [hl] at hparse
      cases hparse
    · rw [hl] at hparse
      cases hparse
      have hchunks : s.Appends t [.instruction i] chunks := happends
      obtain ⟨bytes, others, hbytes, hothers, rfl⟩ := mapM_cons_eq_ok.mp hchunks.contributions
      rw [List.mapM_nil] at hothers
      cases hothers
      obtain ⟨buf, hencode, rfl⟩ := map_eq_ok.mp hbytes
      obtain ⟨front, field, hbuf, hlength, hfield⟩ := Instruction.encode_constant hencode hmem
      refine ⟨hleast, hmost, front, field, ?_, hlength, ?_⟩
      · rw [hchunks.code, List.flatten_singleton, hbuf]
      · rw [hfield, Int64.toInt_ofInt]
        exact Int.bmod_emod
  · intro hwide
    obtain ⟨complaint, span, hparse⟩ | ⟨i, _, hleast, hmost, _⟩ := h.parse_cases
    · refine ⟨complaint, span, hparse, fun s hsize => ?_⟩
      rw [emit, sourceActions, if_neg (Nat.not_lt.mpr hsize), hparse]
      rfl
    · have hleast' : -(2 ^ 63) ≤ lit.value := hleast
      have hmost' : lit.value < 2 ^ 64 := hmost
      omega

end Assembler

/-- The number `0FFFFFFFFFFFFFF80h`, whose 64 bits are those of -128. -/
def negativeBits : Literal :=
  ⟨false, .hexSuffixed (.ofChars ('0' :: (List.replicate 14 'F' ++ ['8', '0'])) (by decide)
    (by decide)) (by rintro c ⟨⟩; decide)⟩

/-- The number `-0x8000000000000001`, which is below all constants. -/
def belowConstants : Literal :=
  ⟨true, .hex (.ofChars ('8' :: (List.replicate 14 '0' ++ ['1'])) (by decide) (by decide))⟩

theorem numberLine_negativeBits :
    NumberLine "add rax, 0FFFFFFFFFFFFFF80h ; low" negativeBits ⟨.ident, "add", ⟨1, 1, 0, 3⟩⟩
      [⟨.ident, "rax", ⟨1, 5, 4, 3⟩⟩, ⟨.comma, ",", ⟨1, 8, 7, 1⟩⟩] "add rax, ".toList
      " ; low".toList := by
  have hword : Piece.read 'a' "dd rax, 0FFFFFFFFFFFFFF80h ; low".toList =
      .ok ⟨some .ident, "add", 2⟩ := by decide +kernel
  have hblank : Piece.read ' ' "rax, 0FFFFFFFFFFFFFF80h ; low".toList = .ok ⟨none, "", 0⟩ := by
    decide +kernel
  have hregister : Piece.read 'r' "ax, 0FFFFFFFFFFFFFF80h ; low".toList =
      .ok ⟨some .ident, "rax", 2⟩ := by decide +kernel
  have hcomma : Piece.read ',' " 0FFFFFFFFFFFFFF80h ; low".toList =
      .ok ⟨some .comma, ",", 0⟩ := by decide +kernel
  have hblank' : Piece.read ' ' "0FFFFFFFFFFFFFF80h ; low".toList = .ok ⟨none, "", 0⟩ := by
    decide +kernel
  have hstart : Reached "add rax, 0FFFFFFFFFFFFFF80h ; low" [] []
      ('a' :: "dd rax, 0FFFFFFFFFFFFFF80h ; low".toList) := .start
  exact {
    oneLine := by decide
    reached := ((((hstart.next hword).next hblank).next hregister).next hcomma).next hblank'
    stops := by decide
    name := rfl
    mnemonic := by decide +kernel
    unbracketed := by decide }

theorem numberLine_belowConstants :
    NumberLine "push -0x8000000000000001" belowConstants ⟨.ident, "push", ⟨1, 1, 0, 4⟩⟩ []
      "push ".toList [] := by
  have hword : Piece.read 'p' "ush -0x8000000000000001".toList = .ok ⟨some .ident, "push", 3⟩ := by
    decide +kernel
  have hblank : Piece.read ' ' "-0x8000000000000001".toList = .ok ⟨none, "", 0⟩ := by decide +kernel
  have hstart : Reached "push -0x8000000000000001" [] []
      ('p' :: "ush -0x8000000000000001".toList) := .start
  exact {
    oneLine := by decide
    reached := (hstart.next hword).next hblank
    stops := by decide
    name := rfl
    mnemonic := by decide +kernel
    unbracketed := by decide }

/-- The largest bits end as one byte, and a number below all constants is reported. -/
theorem Assembler.emit_constant_bounds :
    negativeBits.value = 2 ^ 64 - 128 ∧
    (∃ t front field, ({} : Assembler).emit "add rax, 0FFFFFFFFFFFFFF80h ; low" = ⟨t, none⟩ ∧
      t.code.toList = front ++ field ∧ field.length ∈ [1, 2, 4] ∧
      Bytes.toInt field % 2 ^ 64 = 2 ^ 64 - 128) ∧
    belowConstants.value = -(2 ^ 63) - 1 ∧
    ∃ complaint span,
      Listing.parse "push -0x8000000000000001" = .error (.complain complaint span) := by
  have hemit : ({} : Assembler).emit "add rax, 0FFFFFFFFFFFFFF80h ; low" = ⟨_, none⟩ :=
    congrArg (Outcome.mk _) (by decide +kernel)
  have hbits : negativeBits.value = 2 ^ 64 - 128 := by decide
  have hbelow : belowConstants.value = -(2 ^ 63) - 1 := by decide
  obtain ⟨_, _, front, field, hcode, hlength, hfield⟩ :=
    (emit_constant numberLine_negativeBits).1 _ _ hemit
  obtain ⟨complaint, span, hparse, _⟩ :=
    (emit_constant numberLine_belowConstants).2 (.inl (by rw [hbelow]; decide))
  rw [hbits] at hfield
  exact ⟨hbits, ⟨_, front, field, hemit, hcode, hlength, hfield⟩, hbelow, complaint, span, hparse⟩

end X64Asm
