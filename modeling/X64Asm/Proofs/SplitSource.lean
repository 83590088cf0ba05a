import X64Asm.Proofs.JoinedText
import X64Asm.Proofs.SymbolKinds

/-! # A source in two parts

Assembling two texts one after the other puts out what the two together put out, with a line end
between them (`Assembler.emit_joined`).

Taken together, the second text goes on in the section and in the mode of the first, and its
declarations take effect ahead of the section that the first left open.  None of this reaches the
output: the encoding of an instruction does not depend on its mode (`addEntry_modeless`), no entry
reads the symbols, and the kind of a symbol does not depend on where in the text it is declared. -/

namespace X64Asm

/-! ### Entries without their mode -/

/-- The entry with its mode taken to be 64 bits. -/
def SectionEntry.modeless : SectionEntry → SectionEntry
  | instruction i => instruction { i with bits := 64 }
  | data bytes => data bytes
  | label name => label name

theorem Statement.entries_modeless (bits : UInt8) (st : Statement) :
    (st.entries bits).map SectionEntry.modeless = st.entries 64 := by
  cases st with
  | data values => simp [entries, SectionEntry.modeless]
  | label name => rfl
  | mode bits => rfl
  | enter name => rfl
  | imports names => rfl
  | exports names => rfl
  | instruction mnemonic operands => rfl

theorem contentsFrom_modeless (earlier sts : List Statement) :
    ((contentsFrom earlier sts).map (·.2)).map SectionEntry.modeless =
      sts.flatMap (Statement.entries 64) := by
  induction sts generalizing earlier with
  | nil => rfl
  | cons st sts ih =>
      have hsecond : ((st.entries (modeAfter earlier)).map (sectionAfter earlier, ·)).map (·.2) =
          st.entries (modeAfter earlier) := List.map_map.trans (List.map_id _)
      rw [contentsFrom, List.map_append, List.map_append, ih, hsecond, st.entries_modeless,
        List.flatMap_cons]

namespace Assembler

/-- The mode of an instruction does not reach its encoding. -/
theorem addEntry_modeless (s : Assembler) (e : SectionEntry) :
    s.addEntry e.modeless = s.addEntry e := by
  cases e <;> rfl

theorem run_modeless (s : Assembler) (es : List SectionEntry) :
    s.run ((es.map SectionEntry.modeless).map .entry) = s.run (es.map .entry) := by
  induction es generalizing s with
  | nil => rfl
  | cons e es ih =>
      simp only [List.map_cons, run, perform, addEntry_modeless]
      split
      · exact ih _
      · rfl

/-- The symbols aside, a listing does what the entries of its statements do, whatever their mode. -/
theorem run_ofStatements (s : Assembler) (symbols : SymbolTable) (sts : List Statement) :
    ∃ after, (s.withSymbols symbols).run (Listing.ofStatements sts).actions =
      (s.run ((sts.flatMap (Statement.entries 64)).map .entry)).withSymbols after := by
  obtain ⟨after, hafter⟩ := run_withSymbols s symbols (Listing.ofStatements sts).actions
  rw [Listing.filterMap_actions, ← Listing.map_contents, (Listing.ofStatements_contents sts).1,
    ← run_modeless, contentsFrom_modeless] at hafter
  exact ⟨after, hafter⟩

theorem emit_eq_run {s : Assembler} {source : String} {tokens : List Token} {sts : List Statement}
    (hsize : source.utf8ByteSize ≤ s.options.limits.sourceBytes)
    (htokens : tokenize source = .ok tokens) (hsts : readStatements tokens = .ok sts) :
    s.emit source = s.run (Listing.ofStatements sts).actions := by
  have hlisting : Listing.parse source = .ok (.ofStatements sts) :=
    bind_eq_ok.mpr ⟨tokens, htokens, map_eq_ok.mpr ⟨sts, hsts, rfl⟩⟩
  unfold emit sourceActions
  rw [if_neg (by omega), hlisting]
  rfl

theorem statements_of_parse {source : String} (h : ∃ l, Listing.parse source = .ok l) :
    ∃ tokens sts, tokenize source = .ok tokens ∧ readStatements tokens = .ok sts := by
  obtain ⟨l, hl⟩ := h
  obtain ⟨tokens, htokens, hl⟩ := bind_eq_ok.mp hl
  obtain ⟨sts, hsts, _⟩ := map_eq_ok.mp hl
  exact ⟨tokens, sts, htokens, hsts⟩

end Assembler

namespace Outcome

/-- Goes on after a step that went well. -/
def andThen (o : Outcome) (next : Assembler → Outcome) : Outcome :=
  match o with
  | ⟨s, none⟩ => next s
  | failed => failed

/-- The same failure or none, the same output, and the same counts. -/
structure Agrees (o o' : Outcome) : Prop where
  failure : o.failure = o'.failure
  code : o.state.code = o'.state.code
  labels : o.state.labels = o'.state.labels
  statementCount : o.state.statementCount = o'.state.statementCount
  labelCount : o.state.labelCount = o'.state.labelCount

theorem agrees_withSymbols (o : Outcome) (symbols symbols' : SymbolTable) :
    (o.withSymbols symbols).Agrees (o.withSymbols symbols') := ⟨rfl, rfl, rfl, rfl, rfl⟩

end Outcome

namespace Assembler

variable {s : Assembler} {sts sts' : List Statement}

/-- The symbols aside, two listings in turn do what the listing of both does. -/
theorem run_joined (s : Assembler) (sts sts' : List Statement) :
    (s.run (Listing.ofStatements (sts ++ sts')).actions).Agrees
      ((s.run (Listing.ofStatements sts).actions).andThen
        (·.run (Listing.ofStatements sts').actions)) := by
  obtain ⟨symbols, hwhole⟩ := run_ofStatements s s.symbols (sts ++ sts')
  obtain ⟨symbols', hfirst⟩ := run_ofStatements s s.symbols sts
  rw [List.flatMap_append, List.map_append, run_append] at hwhole
  rw [show s.run _ = _ from hwhole, show s.run _ = _ from hfirst]
  cases s.run ((sts.flatMap (Statement.entries 64)).map .entry) with
  | mk middle failure =>
      cases failure with
      | some f => exact Outcome.agrees_withSymbols ⟨middle, some f⟩ symbols symbols'
      | none =>
          obtain ⟨symbols'', hsecond⟩ := run_ofStatements middle symbols' sts'
          show Outcome.Agrees _ ((middle.withSymbols symbols').run _)
          rw [hsecond]
          exact Outcome.agrees_withSymbols _ symbols symbols''

/-- The kinds of symbols behind two listings in turn are those behind the listing of both. -/
theorem kind?_joined {first second whole : Assembler}
    (hfirst : s.run (Listing.ofStatements sts).actions = ⟨first, none⟩)
    (hsecond : first.run (Listing.ofStatements sts').actions = ⟨second, none⟩)
    (hwhole : s.run (Listing.ofStatements (sts ++ sts')).actions = ⟨whole, none⟩) (name : String) :
    whole.symbols.kind? name = second.symbols.kind? name := by
  rw [kind?_run hwhole, kind?_run hsecond, kind?_run hfirst]
  simp only [Listing.declared_ofStatements, Listing.labels_ofStatements, List.flatMap_append,
    lastKind?_append, labelKind?_append, Option.or_assoc]

theorem options_run {actions : List Action} {t : Assembler} (h : s.run actions = ⟨t, none⟩) :
    t.options = s.options := by
  obtain ⟨_, hchunks⟩ := appends_of_run h
  exact hchunks.options

/-- Two texts that are assembled one after the other come to the same as both together with a line
end between them: the same failure or none, the same output and counts, and, if all went well,
symbols of the same kinds. -/
theorem emit_joined {a b : String} (ha : ∃ l, Listing.parse a = .ok l)
    (hb : ∃ l, Listing.parse b = .ok l)
    (hsize : (a ++ "\n" ++ b).utf8ByteSize ≤ s.options.limits.sourceBytes) :
    (s.emit (a ++ "\n" ++ b)).Agrees ((s.emit a).andThen (·.emit b)) ∧
      ((s.emit (a ++ "\n" ++ b)).failure = none → ∀ name,
        (s.emit (a ++ "\n" ++ b)).state.symbols.kind? name =
          ((s.emit a).andThen (·.emit b)).state.symbols.kind? name) := by
  obtain ⟨tokens, sts, htokens, hsts⟩ := statements_of_parse ha
  obtain ⟨tokens', sts', htokens', hsts'⟩ := statements_of_parse hb
  obtain ⟨joined, hjoined, hboth⟩ := readStatements_joined htokens hsts htokens' hsts'
  have hsizes : a.utf8ByteSize ≤ s.options.limits.sourceBytes ∧
      b.utf8ByteSize ≤ s.options.limits.sourceBytes := by
    simp only [String.utf8ByteSize_append] at hsize
    omega
  rw [emit_eq_run hsize hjoined hboth, emit_eq_run hsizes.1 htokens hsts]
  have hagrees := run_joined s sts sts'
  cases hfirst : s.run (Listing.ofStatements sts).actions with
  | mk first failure =>
      rw [hfirst] at hagrees
      cases failure with
      | some f =>
          refine ⟨hagrees, ?_⟩
          intro hnone
          rw [hagrees.failure] at hnone
          cases hnone
      | none =>
          have hsecond : first.emit b = first.run (Listing.ofStatements sts').actions :=
            emit_eq_run (by rw [options_run hfirst]; exact hsizes.2) htokens' hsts'
          show Outcome.Agrees _ (first.emit b) ∧
            (_ → ∀ name, _ = (first.emit b).state.symbols.kind? name)
          rw [hsecond]
          refine ⟨hagrees, ?_⟩
          intro hnone name
          have hnone' := hagrees.failure.symm.trans hnone
          exact kind?_joined hfirst (congrArg (Outcome.mk _) hnone')
            (congrArg (Outcome.mk _) hnone) name

/-- A text that leaves a section open, in another mode than the usual, and ends in a comment. -/
def openText : String := "bits 32\nsection .text\nf: push rax ; f"

/-- A text without a section, which declares a label of the first. -/
def closingText : String := "g: add rax, 1\nglobal f"

theorem emit_joined_openText :
    (({} : Assembler).emit (openText ++ "\n" ++ closingText)).Agrees
      ((({} : Assembler).emit openText).andThen (·.emit closingText)) ∧
    (({} : Assembler).emit (openText ++ "\n" ++ closingText)).state.code =
      #[0x50, 0x48, 0x83, 0xC0, 1] ∧
    (({} : Assembler).emit (openText ++ "\n" ++ closingText)).state.symbols.kind? "f" =
      some .exported ∧
    ((({} : Assembler).emit openText).andThen (·.emit closingText)).state.symbols.kind? "f" =
      some .exported := by
  have ha : ∃ l, Listing.parse openText = .ok l :=
    ⟨⟨[.sectionBlock ".text" [.label "f",
      .instruction ⟨32, "push", [.register ⟨"rax", .qword⟩]⟩]]⟩, by decide +kernel⟩
  have hb : ∃ l, Listing.parse closingText = .ok l :=
    ⟨⟨[.exportSymbol "f", .sectionBlock "" [.label "g",
      .instruction ⟨64, "add", [.register ⟨"rax", .qword⟩, .immediate (.imm8 1)]⟩]]⟩,
      by decide +kernel⟩
  have hdone : (({} : Assembler).emit (openText ++ "\n" ++ closingText)).failure = none ∧
      (({} : Assembler).emit (openText ++ "\n" ++ closingText)).state.code =
        #[0x50, 0x48, 0x83, 0xC0, 1] ∧
      (({} : Assembler).emit (openText ++ "\n" ++ closingText)).state.symbols.kind? "f" =
        some .exported := by
    decide +kernel
  obtain ⟨hagrees, hkinds⟩ := @emit_joined {} _ _ ha hb (by decide +kernel)
  exact ⟨hagrees, hdone.2.1, hdone.2.2, (hkinds hdone.1 "f").symm.trans hdone.2.2⟩

end Assembler

end X64Asm
