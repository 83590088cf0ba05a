import X64Asm.Proofs.CheckedReader
import X64Asm.Proofs.EncodingOutcome
import X64Asm.Proofs.ObjectReadBack
import X64Asm.Proofs.Sessions

/-! # Assembling without a false step

`Checked.emitObject` assembles a text, finishes the program and writes its object file.  It reads by
offsets and indices, puts instructions together in a buffer of fixed size, and writes the file in two
passes: one over the sizes of the sections, one over the contents.  It has no result if a step on the
way cannot be taken.  Stack and memory are taken to suffice: how deep the functions nest and how much
they store is not counted.

Every text, in every state of the assembler, has a result (`Checked.emitObject_completes`), and it is
the one that the assembler gives.  Only the counting of lines and columns may need a shorter text: if
it stops at the greatest word, a text as long as that has none (`Checked.emitObject_longLine`). -/

namespace X64Asm

namespace Checked

/-! ### The object file -/

/-- The next multiple of `align`, which must not be zero. -/
def roundUp (n align : Nat) : Checked Nat := do
  let most ← minus align 1
  pure ((n + most) / align * align)

/-- The offsets of the sections' contents, and the offset at which the last of them ends. -/
def layOut (start : Nat) : List ObjectSection → Checked (List Nat × Nat)
  | [] => pure ([], start)
  | s :: ss => do
    let offset ← roundUp start s.align
    let (offsets, stop) ← layOut (offset + s.contents.length) ss
    pure (offset :: offsets, stop)

/-- Writes an object file.  Only the symbols are moved up to their place; the code and the names of
the sections are written where the headers end. -/
def writeObject (o : ObjectFile) : Checked Bytes := do
  let (offsets, stop) ← layOut o.headersEnd o.sections
  match offsets[2]? with
  | none => ExceptT.mk none
  | some symbolsStart =>
    let head := ObjectFile.header (o.sections.length + 1) ++ o.sectionHeaders ++ o.code ++
      StringTable.bytes ObjectFile.sectionNames
    let gap ← minus symbolsStart head.length
    let file := head ++ List.replicate gap 0 ++ o.records.flatMap SymbolRecord.bytes ++
      StringTable.bytes o.symbolNames
    guarded (file.length = stop) file

theorem roundUp_eq {align : Nat} (h : 0 < align) (n : Nat) :
    roundUp n align = pure (alignUp n align) := by
  have hone : 1 ≤ align := h
  unfold roundUp minus alignUp
  rw [guarded_eq hone, pure_bind, Nat.add_sub_assoc hone]

theorem layOut_eq {ss : List ObjectSection} (h : ∀ s ∈ ss, 0 < s.align) (start : Nat) :
    layOut start ss = pure (ObjectSection.offsetsFrom start ss,
      start + (ObjectSection.bodiesFrom start ss).length) := by
  induction ss generalizing start with
  | nil => rfl
  | cons s ss ih =>
      rw [List.forall_mem_cons] at h
      have hle := le_alignUp h.1 start
      have hstop : ∀ rest, alignUp start s.align + s.contents.length + rest =
          start + (alignUp start s.align - start + s.contents.length + rest) := by omega
      rw [layOut, roundUp_eq h.1, pure_bind, ih h.2, pure_bind]
      dsimp only
      rw [ObjectSection.offsetsFrom, ObjectSection.bodiesFrom, List.length_append,
        List.length_append, List.length_replicate, hstop]

theorem alignUp_one (n : Nat) : alignUp n 1 = n := by
  unfold alignUp
  rw [Nat.add_sub_cancel, Nat.div_one, Nat.mul_one]

section object

variable (o : ObjectFile)

/-- The headers end at a place for code. -/
theorem alignUp_headersEnd : alignUp o.headersEnd 16 = o.headersEnd := by
  have hlength : o.sections.length = 4 := rfl
  unfold ObjectFile.headersEnd
  rw [hlength]
  rfl

/-- The offset at which the symbols would stand without alignment. -/
def unalignedSymbols : Nat :=
  o.headersEnd + o.code.length + (StringTable.bytes ObjectFile.sectionNames).length

theorem offsets_sections :
    (ObjectSection.offsetsFrom o.headersEnd o.sections)[2]? =
      some (alignUp (unalignedSymbols o) 8) := by
  unfold ObjectFile.sections unalignedSymbols
  simp only [ObjectSection.offsetsFrom, alignUp_headersEnd, alignUp_one, List.getElem?_cons_succ,
    List.getElem?_cons_zero]

theorem bodies_sections : ObjectSection.bodiesFrom o.headersEnd o.sections =
    o.code ++ StringTable.bytes ObjectFile.sectionNames ++
      List.replicate (alignUp (unalignedSymbols o) 8 - unalignedSymbols o) 0 ++
      o.records.flatMap SymbolRecord.bytes ++ StringTable.bytes o.symbolNames := by
  unfold ObjectFile.sections unalignedSymbols
  simp only [ObjectSection.bodiesFrom, alignUp_headersEnd, alignUp_one, Nat.sub_self,
    List.replicate_zero, List.nil_append, List.append_nil, List.append_assoc]

/-- The file written in two passes is the image. -/
theorem writeObject_eq : writeObject o = pure o.image := by
  have hhead : (ObjectFile.header (o.sections.length + 1) ++ o.sectionHeaders ++ o.code ++
      StringTable.bytes ObjectFile.sectionNames).length = unalignedSymbols o := by
    rw [List.length_append, List.length_append, o.length_headers]
    rfl
  have hgap : unalignedSymbols o ≤ alignUp (unalignedSymbols o) 8 := le_alignUp (by decide) _
  have hstop : o.headersEnd + (ObjectSection.bodiesFrom o.headersEnd o.sections).length =
      o.image.length := by
    unfold ObjectFile.image
    rw [List.length_append, o.length_headers]
  have himage : ObjectFile.header (o.sections.length + 1) ++ o.sectionHeaders ++ o.code ++
      StringTable.bytes ObjectFile.sectionNames ++
      List.replicate (alignUp (unalignedSymbols o) 8 - unalignedSymbols o) 0 ++
      o.records.flatMap SymbolRecord.bytes ++ StringTable.bytes o.symbolNames = o.image := by
    unfold ObjectFile.image
    rw [bodies_sections]
    simp only [List.append_assoc]
  unfold writeObject
  rw [layOut_eq o.align_pos, pure_bind]
  dsimp only
  rw [offsets_sections, hstop]
  dsimp only
  rw [hhead, minus, guarded_eq hgap, pure_bind, himage, guarded_eq rfl]

end object

end Checked

/-! ### Assembling -/

/-- An encoding that fails does so with a report. -/
theorem Instruction.encode_cases (i : Instruction) (layout : Imm16Layout) :
    (∃ d, i.encode layout = .error (.diagnostic d)) ∨
    ∃ buf, i.encode layout = .ok buf ∧ 1 ≤ buf.toList.length ∧ buf.toList.length ≤ 8 := by
  rcases i.encode_outcome layout with hform | ⟨f, hf, hmalformed⟩ | hbytes
  · exact .inl ⟨_, hform⟩
  · cases f with
    | diagnostic d => exact .inl ⟨d, hf⟩
    | overflow cause => exact absurd hmalformed id
  · exact .inr hbytes

namespace Assembler

variable {s : Assembler}

theorem Refused.ne_overflow {e : SectionEntry} {o : Outcome} (h : s.Refused e o) (cause : Overflow) :
    o.failure ≠ some (.overflow cause) := by
  intro hfailure
  cases h with
  | statements => cases hfailure
  | encoding encode =>
      cases hfailure
      rcases Instruction.encode_cases _ s.options.imm16 with ⟨d, hd⟩ | ⟨buf, hbuf, _⟩
      · exact nomatch encode.symm.trans hd
      · exact nomatch encode.symm.trans hbuf
  | output => cases hfailure
  | labels => cases hfailure

theorem perform_ne_overflow (action : Action) (cause : Overflow) :
    (s.perform action).failure ≠ some (.overflow cause) := by
  intro h
  cases action with
  | enter name count => cases h
  | declare name kind => cases h
  | entry e =>
      have hadd : s.addEntry e = ⟨(s.addEntry e).state, some (.overflow cause)⟩ := by
        rw [← h]
        rfl
      exact (refused_addEntry hadd).ne_overflow cause rfl

/-- No instruction of a run outgrows its buffer. -/
theorem run_ne_overflow (actions : List Action) (cause : Overflow) :
    (s.run actions).failure ≠ some (.overflow cause) := by
  induction actions generalizing s with
  | nil =>
      intro h
      cases h
  | cons action actions ih =>
      have hfirst := perform_ne_overflow (s := s) action cause
      rw [run]
      generalize s.perform action = o at hfirst ⊢
      obtain ⟨after, _ | f⟩ := o
      · exact ih
      · exact hfirst

end Assembler

namespace Checked

/-- The listing of a text, read by offsets and indices. -/
def parse (counting : Counting) (source : String) : Checked Listing := do
  let tokens ← tokenize counting source
  readListing tokens

/-- What came of a step, unless an instruction outgrew its buffer. -/
def settled : Outcome → Option Outcome
  | ⟨_, some (.overflow _)⟩ => none
  | outcome => some outcome

/-- Assembles a source text. -/
def emit (counting : Counting) (s : Assembler) (source : String) : Option Outcome :=
  if s.options.limits.sourceBytes < source.utf8ByteSize then
    some (s.report (.exhausted .sourceBytes s.options.limits.sourceBytes))
  else do
    match ← (parse counting source).run with
    | .error d => some (s.report d)
    | .ok listing => settled (s.run listing.actions)

/-- Finishes the program and writes its object file. -/
def finishObject (s : Assembler) : Checked Bytes := do
  let assembly ← ofExcept s.finish
  writeObject assembly.objectFile

/-- Assembles a source text, finishes the program and writes its object file.  The program can be
finished even if the text was reported. -/
def emitObject (counting : Counting) (s : Assembler) (source : String) :
    Option (Outcome × Except Diagnostic Bytes) := do
  let outcome ← emit counting s source
  let file ← (finishObject outcome.state).run
  pure (outcome, file)

theorem parse_eq {counting : Counting} {source : String} (hs : counting.Suffices source) :
    parse counting source = ofExcept (Listing.parse source) := by
  unfold parse Listing.parse
  rw [tokenize_eq hs]
  cases htokens : X64Asm.tokenize source with
  | error d => rfl
  | ok tokens =>
      obtain ⟨ahead, eof, rfl, heof, hahead⟩ := scan_ends htokens
      exact readListing_eq hahead heof

theorem settled_run (s : Assembler) (actions : List Action) :
    settled (s.run actions) = some (s.run actions) := by
  have hrun := Assembler.run_ne_overflow (s := s) actions
  generalize s.run actions = o at hrun ⊢
  obtain ⟨after, _ | f⟩ := o
  · rfl
  · cases f with
    | diagnostic d => rfl
    | overflow cause => exact absurd rfl (hrun cause)

theorem finishObject_eq (s : Assembler) :
    finishObject s = ofExcept (s.finish.map (·.objectFile.image)) := by
  unfold finishObject
  cases s.finish with
  | error d => rfl
  | ok assembly => exact writeObject_eq assembly.objectFile

section results

variable {counting : Counting} {s : Assembler} {source : String}

theorem emit_eq (hs : source.utf8ByteSize ≤ s.options.limits.sourceBytes → counting.Suffices source) :
    emit counting s source = some (s.emit source) := by
  unfold emit Assembler.emit Assembler.sourceActions
  by_cases hlimit : s.options.limits.sourceBytes < source.utf8ByteSize
  · rw [if_pos hlimit, if_pos hlimit]
  · rw [if_neg hlimit, if_neg hlimit, parse_eq (hs (Nat.le_of_not_lt hlimit))]
    cases Listing.parse source with
    | error d => rfl
    | ok listing => exact settled_run s listing.actions

theorem emitObject_eq
    (hs : source.utf8ByteSize ≤ s.options.limits.sourceBytes → counting.Suffices source) :
    emitObject counting s source =
      some (s.emit source, (s.emit source).state.finish.map (·.objectFile.image)) := by
  unfold emitObject
  rw [emit_eq hs, Option.bind_eq_bind, Option.bind_some, finishObject_eq]
  rfl

/-- Whatever the text and the state of the assembler, no step on the way to the object file is one
that cannot be taken: there is a result, and it is that of the assembler.  If counting stops at the
greatest word, the text has to be shorter, or too long for the limits.  An instruction, whether from
a text or not, is reported or takes one to eight bytes.

Stack and memory are taken to suffice. -/
theorem emitObject_completes
    (hs : source.utf8ByteSize ≤ s.options.limits.sourceBytes → counting.Suffices source) :
    emitObject counting s source =
      some (s.emit source, (s.emit source).state.finish.map (·.objectFile.image)) ∧
    ∀ (i : Instruction) (layout : Imm16Layout),
      (∃ d, i.encode layout = .error (.diagnostic d)) ∨
      ∃ buf, i.encode layout = .ok buf ∧ 1 ≤ buf.toList.length ∧ buf.toList.length ≤ 8 :=
  ⟨emitObject_eq hs, Instruction.encode_cases⟩

end results

/-- A text with characters of several bytes, where counting stops at the greatest word. -/
theorem emitObject_completes_mixedText :
    Counting.checked.Suffices "a: db 'é' ; ü\n\tadd rax, -1" ∧
    ∃ outcome file,
      emitObject .checked {} "a: db 'é' ; ü\n\tadd rax, -1" = some (outcome, .ok file) ∧
      outcome.failure = none ∧ outcome.state.code = #[0x48, 0x83, 0xC0, 0xFF] := by
  have hs : Counting.checked.Suffices "a: db 'é' ; ü\n\tadd rax, -1" := fun _ => by decide +kernel
  have hroom : (({} : Assembler).emit "a: db 'é' ; ü\n\tadd rax, -1").state.outputFull 0 = false := by
    decide +kernel
  have hcompletes := (emitObject_completes (s := {}) fun _ => hs).1
  rw [Assembler.finish, if_neg (by rw [hroom]; exact Bool.false_ne_true)] at hcompletes
  exact ⟨hs, _, _, hcompletes, by decide +kernel, by decide +kernel⟩

/-- A line of blanks as long as the greatest word, within the limits, has no result if counting stops
there. -/
theorem emitObject_longLine : ∃ (s : Assembler) (source : String),
    source.utf8ByteSize < UInt32.size ∧ emitObject .checked s source = none := by
  refine ⟨{ options := { limits := { sourceBytes := 4294967295 } } }, blanks 4294967295, ?_, ?_⟩
  · rw [utf8ByteSize_blanks]
    decide
  · unfold emitObject emit parse
    rw [utf8ByteSize_blanks, if_neg (Nat.lt_irrefl _), tokenize_blanks (by decide)]
    rfl

end Checked

end X64Asm
