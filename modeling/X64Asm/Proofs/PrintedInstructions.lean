import X64Asm.Proofs.ScannedText
import X64Asm.Proofs.SourceFailures

/-! # Printed instructions

An instruction that is printed reads as itself (`Instruction.parse_render`).

Names and decimal numbers are one token each, operands have the tokens of arguments, and lists of
operands those of arguments with commas between them (`scans_operands`). -/

namespace X64Asm

open Grammar

/-! ### Names -/

/-- The word can stand for an instruction: it is a name in lower case and no keyword. -/
structure IsMnemonic (word : String) : Prop where
  name : isName word = true
  lower : word.toLower = word
  free : word ∉ keywords

section names

variable {text : String}

/-- A register is named by its own name. -/
theorem Register.parse?_name {r : Register} (h : parse? text = some r) :
    isName r.name = true ∧ parse? r.name = some r := by
  obtain ⟨code, hcode, rfl⟩ := Option.map_eq_some_iff.mp h
  have hrows : ∀ row ∈ table.rows.toList, isName row.1 = true ∧ row.1.toLower = row.1 := by
    decide +kernel
  obtain ⟨hname, hlower⟩ := hrows _ (SortedTable.mem_of_find? hcode)
  refine ⟨hname, ?_⟩
  rw [parse?]
  dsimp only at hlower ⊢
  rw [hlower, hcode]
  rfl

end names

/-! ### Operands -/

section operands

variable {rest : List Char}

theorem scans_memory {text : String} {kind : TokenKind} {a : Address}
    (htext : ∀ {rest}, Apart rest → Scans text.toList rest (OneToken kind text))
    (hinside : ∀ span, Location ⟨kind, text, span⟩ a) :
    Scans ("[" ++ text ++ "]").toList rest (Argument · (.memory a)) := by
  have hopen : Scans ['['] (text.toList ++ [']'] ++ rest) (OneToken .openBracket "[") :=
    scans_of_read rfl
  have hclose : Scans [']'] rest (OneToken .closeBracket "]") := scans_of_read rfl
  have hapart : Apart (']' :: rest) := apart_cons (by decide) rest
  rw [String.toList_append, String.toList_append, List.append_assoc]
  refine (hopen.append ((htext hapart).append hclose)).mono ?_
  rintro _ ⟨_, _, rfl, ⟨_, rfl⟩, _, _, rfl, ⟨span, rfl⟩, ⟨_, rfl⟩⟩
  exact .memory rfl (hinside span) rfl

theorem scans_operand {op : Operand} (h : op.Written) (hrest : Apart rest) :
    Scans op.render.toList rest (Argument · op) := by
  cases h with
  | register named =>
      obtain ⟨hname, hparse⟩ := Register.parse?_name named
      refine (scans_name hname hrest).mono ?_
      rintro _ ⟨span, rfl⟩
      exact .register rfl hparse
  | base named =>
      obtain ⟨hname, hparse⟩ := Register.parse?_name named
      exact scans_memory (scans_name hname) fun _ => .register rfl hparse
  | displacement value =>
      have hleast : -(2 ^ 31) ≤ value.toInt := value.le_toInt
      have hmost : value.toInt < 2 ^ 31 := value.toInt_lt
      have htext : ∀ {rest}, Apart rest → Scans (toString value.toInt).toList rest
          (OneToken (.number value.toInt) (toString value.toInt)) :=
        scans_toString (by omega) (by omega)
      refine scans_memory htext fun span => ?_
      have hnumber := @Location.number ⟨.number value.toInt, toString value.toInt, span⟩ _ rfl
        hleast hmost
      rw [value.ofInt_toInt] at hnumber
      exact hnumber
  | constant value =>
      have hleast : -(2 ^ 63) ≤ value.toInt := value.le_toInt
      have hmost : value.toInt < 2 ^ 63 := value.toInt_lt
      have htext : (Operand.constant value).render = toString value.toInt := by
        rw [Operand.constant, Operand.render, Immediate.render, Immediate.value_fit]
      rw [htext]
      refine (scans_toString hleast hmost hrest).mono ?_
      rintro _ ⟨span, rfl⟩
      have hwide : value.toInt < 2 ^ 64 := by omega
      have hnumber := @Argument.number ⟨.number value.toInt, toString value.toInt, span⟩ _ rfl
        hleast hwide
      rw [value.ofInt_toInt] at hnumber
      exact hnumber

/-- Operands are read as they are, with the commas between them. -/
theorem scans_operands {op : Operand} {ops : List Operand} (h : ∀ x ∈ op :: ops, x.Written) :
    Scans (", ".intercalate ((op :: ops).map Operand.render)).toList []
      (Separated .comma Argument · (op :: ops)) := by
  induction ops generalizing op with
  | nil =>
      exact (scans_operand (h op List.mem_cons_self) apart_nil).mono fun _ => .last
  | cons next ops ih =>
      obtain ⟨hop, hops⟩ := List.forall_mem_cons.mp h
      rw [List.map_cons, List.map_cons, String.intercalate_cons_cons, ← List.map_cons,
        String.toList_append, String.toList_append, List.append_assoc]
      refine ((scans_operand hop (apart_cons (by decide) _)).append
        ((scans_comma _).append ((scans_blank _).append (ih hops)))).mono ?_
      rintro _ ⟨_, _, rfl, hargument, _, _, rfl, ⟨span, rfl⟩, _, _, rfl, rfl, hothers⟩
      exact .cons hargument rfl hothers

end operands

/-! ### Instructions -/

namespace Instruction

variable {i : Instruction}

theorem scans_render (hmnemonic : IsMnemonic i.mnemonic) (hwritten : i.Written) :
    Scans i.render.toList [] (Line · [.instruction i.mnemonic i.operands]) := by
  obtain ⟨bits, mnemonic, operands⟩ := i
  have hword : ∀ {t : Token}, t.text = mnemonic → t.text.toLower = mnemonic := by
    intro t ht
    rw [ht]
    exact hmnemonic.lower
  cases operands with
  | nil =>
      refine (scans_name hmnemonic.name apart_nil).mono ?_
      rintro _ ⟨span, rfl⟩
      refine .clause rfl ?_
      rw [hword rfl]
      exact .bare hmnemonic.free
  | cons op ops =>
      rw [render, String.toList_append, String.toList_append, List.append_assoc]
      refine ((scans_name hmnemonic.name (apart_cons (by decide) _)).append
        ((scans_blank _).append (scans_operands hwritten))).mono ?_
      rintro _ ⟨_, _, rfl, ⟨span, rfl⟩, _, _, rfl, rfl, harguments⟩
      refine .clause rfl ?_
      rw [hword rfl]
      exact .instruction hmnemonic.free harguments

end Instruction

theorem isName_of_read {c : Char} {cs : List Char} {piece : Piece}
    (h : Piece.read c cs = .ok piece) (hkind : piece.kind = some .ident) :
    isName piece.text = true := by
  obtain ⟨hstart, rfl⟩ := (Piece.kind_of_read h).2.1 hkind
  have htext : (Piece.readName c cs).text.toList = c :: cs.takeWhile isIdentRest := by
    unfold Piece.readName
    dsimp only
    split <;> exact String.toList_ofList
  exact isName_iff.mpr ⟨c, _, htext, hstart, fun d hd => List.mem_takeWhile_imp hd⟩

/-- The tokens that are names have the texts of names. -/
theorem isName_of_tokenize {source : String} {tokens : List Token}
    (h : tokenize source = .ok tokens) {t : Token} (ht : t ∈ tokens) (hkind : t.kind = .ident) :
    isName t.text = true := by
  obtain ⟨_, _, _, _, _, heof | ⟨c, cs, piece, _, hpiece, hpieceKind, htext⟩⟩ :=
    scan_token .start h ht
  · rw [hkind] at heof
    cases heof
  · rw [hkind] at hpieceKind
    rw [← htext]
    exact isName_of_read hpiece hpieceKind

/-- The instruction of a text is a mnemonic with operands that can be written down. -/
theorem Listing.isMnemonic_of_parse {source : String} {l : Listing} (h : parse source = .ok l)
    {i : Instruction} (hi : .instruction i ∈ l.entries) : IsMnemonic i.mnemonic := by
  obtain ⟨tokens, htokens, word, hword, hkind, us, hclause⟩ := exists_clause_of_parse h hi
  obtain ⟨hmnemonic, hfree, _⟩ := hclause.of_instruction
  have hname : isName word.text.toLower = true := by
    rw [isName_toLower]
    exact isName_of_tokenize htokens hword hkind
  have hlower := toLower_toLower word.text
  rw [← hmnemonic] at hname hlower
  exact ⟨hname, hlower, hfree⟩

/-- An instruction that could stand in a program is read from its text, and the text of an instruction
that stands in a program is read as that instruction. -/
theorem Instruction.parse_render :
    (∀ i : Instruction, i.bits = 64 → IsMnemonic i.mnemonic → i.Written →
      Listing.parse i.render = .ok ⟨[.sectionBlock "" [.instruction i]]⟩) ∧
    (∀ (source : String) (l : Listing) (i : Instruction), Listing.parse source = .ok l →
      .instruction i ∈ l.entries →
        Listing.parse i.render = .ok ⟨[.sectionBlock "" [.instruction { i with bits := 64 }]]⟩) := by
  constructor
  · rintro ⟨bits, mnemonic, operands⟩ hbits hmnemonic hwritten
    cases hbits
    exact Listing.parse_of_scans (scans_render hmnemonic hwritten)
  · intro source l i hparse hi
    exact Listing.parse_of_scans
      (scans_render (Listing.isMnemonic_of_parse hparse hi) (Listing.written_of_parse hparse hi))

/-- A name that no form has, and an operand of each sort. -/
def allOperands : Instruction :=
  ⟨64, ".op_1", [.register ⟨"r10b", .byte⟩, .memory (.base ⟨"eax", .dword⟩), .atDisplacement (-8),
    .constant (-9223372036854775808)]⟩

theorem Instruction.parse_render_allOperands :
    allOperands.render = ".op_1 r10b, [eax], [-8], -9223372036854775808" ∧
      Listing.parse allOperands.render = .ok ⟨[.sectionBlock "" [.instruction allOperands]]⟩ ∧
      ∃ i : Instruction, i.bits = 16 ∧
        Listing.parse "bits 16\nMOV RAX, 0FFFFFFFFFFFFFF80h" =
          .ok ⟨[.sectionBlock "" [.instruction i]]⟩ ∧
        Listing.parse i.render =
          .ok ⟨[.sectionBlock "" [.instruction { i with bits := 64 }]]⟩ := by
  have hwritten : allOperands.Written := by
    have hregister : Register.parse? "r10b" = some ⟨"r10b", .byte⟩ := by decide +kernel
    have hbase : Register.parse? "eax" = some ⟨"eax", .dword⟩ := by decide +kernel
    intro op hop
    simp only [allOperands, List.mem_cons, List.not_mem_nil, or_false] at hop
    rcases hop with rfl | rfl | rfl | rfl
    · exact .register hregister
    · exact .base hbase
    · exact .displacement (-8)
    · exact .constant (-9223372036854775808)
  have hmnemonic : IsMnemonic allOperands.mnemonic :=
    ⟨by decide +kernel, by decide +kernel, by decide +kernel⟩
  have hsource : Listing.parse "bits 16\nMOV RAX, 0FFFFFFFFFFFFFF80h" = .ok ⟨[.sectionBlock ""
      [.instruction ⟨16, "mov", [.register ⟨"rax", .qword⟩, .immediate (.imm8 (-128))]⟩]]⟩ := by
    decide +kernel
  refine ⟨by decide +kernel, parse_render.1 _ rfl hmnemonic hwritten, _, rfl, hsource, ?_⟩
  exact parse_render.2 _ _ _ hsource (by decide)

end X64Asm
