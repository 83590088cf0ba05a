import X64Asm.Listing.Build
import X64Asm.Proofs.AssembledPrefix
import X64Asm.Proofs.Grammar

/-! # What a listing holds

A listing holds the entries of its statements in the order of the text, each under the name of the
section that was entered last and each instruction in the mode that was set last, and the
declarations in the order of the text (`Listing.ofStatements_contents`).

So the listing of a token sequence that ends with an end mark exists just if the grammar derives the
sequence, and holds what is derived (`Listing.ofTokens_grammar`). -/

namespace X64Asm

/-! ### Contents of statements -/

namespace Statement

/-- The mode that is set. -/
def mode? : Statement → Option UInt8
  | mode bits => some bits
  | label _ | enter _ | imports _ | exports _ | data _ | instruction _ _ => none

/-- The section that is entered. -/
def section? : Statement → Option String
  | enter name => some name
  | label _ | mode _ | imports _ | exports _ | data _ | instruction _ _ => none

/-- The entries that are spelled out, in the given mode. -/
def entries (bits : UInt8) : Statement → List SectionEntry
  | label name => [.label name]
  | data values => values.map .data
  | instruction mnemonic operands => [.instruction ⟨bits, mnemonic, operands⟩]
  | mode _ | enter _ | imports _ | exports _ => []

/-- The declarations that are made. -/
def declarations : Statement → List Directive
  | imports names => names.map .importSymbol
  | exports names => names.map .exportSymbol
  | label _ | mode _ | enter _ | data _ | instruction _ _ => []

end Statement

/-- The mode behind the statements: the last that was set, or else 64 bits. -/
def modeAfter (sts : List Statement) : UInt8 := (sts.filterMap Statement.mode?).getLastD 64

/-- The section behind the statements: the last that was entered, or else the one without a name. -/
def sectionAfter (sts : List Statement) : String := (sts.filterMap Statement.section?).getLastD ""

theorem modeAfter_concat (sts : List Statement) (st : Statement) :
    modeAfter (sts ++ [st]) = st.mode?.getD (modeAfter sts) := by
  unfold modeAfter
  rw [List.filterMap_append]
  cases h : st.mode? <;> simp [h]

theorem sectionAfter_concat (sts : List Statement) (st : Statement) :
    sectionAfter (sts ++ [st]) = st.section?.getD (sectionAfter sts) := by
  unfold sectionAfter
  rw [List.filterMap_append]
  cases h : st.section? <;> simp [h]

/-- The entries of the statements that follow earlier ones, each with the name of its section. -/
def contentsFrom (earlier : List Statement) : List Statement → List (String × SectionEntry)
  | [] => []
  | st :: sts =>
    (st.entries (modeAfter earlier)).map (sectionAfter earlier, ·) ++
      contentsFrom (earlier ++ [st]) sts

theorem contentsFrom_append (earlier sts sts' : List Statement) :
    contentsFrom earlier (sts ++ sts') =
      contentsFrom earlier sts ++ contentsFrom (earlier ++ sts) sts' := by
  induction sts generalizing earlier with
  | nil => simp [contentsFrom]
  | cons st sts ih => simp [contentsFrom, ih]

/-! ### Contents of listings -/

namespace Directive

/-- The entries of a section, each with the name of the section. -/
def contents : Directive → List (String × SectionEntry)
  | importSymbol _ | exportSymbol _ => []
  | sectionBlock name entries => entries.map (name, ·)

/-- Whether the directive is an import or an export. -/
def isDeclaration : Directive → Bool
  | importSymbol _ | exportSymbol _ => true
  | sectionBlock _ _ => false

end Directive

namespace Listing

/-- The entries of a listing, each with the name of its section. -/
def contents (l : Listing) : List (String × SectionEntry) := l.directives.flatMap Directive.contents

/-- The imports and exports of a listing. -/
def declarations (l : Listing) : List Directive := l.directives.filter Directive.isDeclaration

theorem map_contents (l : Listing) : l.contents.map (·.2) = l.entries := by
  unfold contents entries
  rw [List.map_flatMap]
  congr 1
  funext d
  cases d with
  | importSymbol name => rfl
  | exportSymbol name => rfl
  | sectionBlock name entries => exact List.map_map.trans (List.map_id entries)

namespace Draft

/-- The name of the open section. -/
def sectionName (d : Draft) : String := (d.current.map (·.1)).getD ""

/-- The entries of the open section. -/
def openEntries (d : Draft) : List SectionEntry := (d.current.map (·.2.toList)).getD []

/-- The draft holds what the statements spell. -/
structure Holds (d : Draft) (sts : List Statement) : Prop where
  bits : d.bits = modeAfter sts
  name : d.sectionName = sectionAfter sts
  contents : d.placed.toList.flatMap Directive.contents ++ d.openEntries.map (d.sectionName, ·) =
    contentsFrom [] sts
  declarations : d.placed.toList.filter Directive.isDeclaration =
    sts.flatMap Statement.declarations

theorem holds_nil : Holds {} [] := ⟨rfl, rfl, rfl, rfl⟩

/-- Entries go to the end of the open section and change nothing else. -/
theorem foldl_addEntry (es : List SectionEntry) (d : Draft) :
    (es.foldl addEntry d).bits = d.bits ∧ (es.foldl addEntry d).placed = d.placed ∧
      (es.foldl addEntry d).sectionName = d.sectionName ∧
      (es.foldl addEntry d).openEntries = d.openEntries ++ es := by
  induction es generalizing d with
  | nil => simp
  | cons e es ih =>
      obtain ⟨hbits, hplaced, hname, hentries⟩ := ih (d.addEntry e)
      have hstep : (d.addEntry e).bits = d.bits ∧ (d.addEntry e).placed = d.placed ∧
          (d.addEntry e).sectionName = d.sectionName ∧
          (d.addEntry e).openEntries = d.openEntries ++ [e] := by
        unfold addEntry sectionName openEntries
        cases d.current <;> simp
      obtain ⟨hbits', hplaced', hname', hentries'⟩ := hstep
      rw [List.foldl_cons, hbits, hplaced, hname, hentries, hbits', hplaced', hname', hentries']
      simp

/-- The open section gets its place behind what is placed; one that is dropped has no entries. -/
theorem leave_cases (d : Draft) :
    d.leave.bits = d.bits ∧
      (d.leave.placed = d.placed ∧ d.openEntries = [] ∨
        d.leave.placed = d.placed.push (.sectionBlock d.sectionName d.openEntries)) := by
  unfold leave sectionName openEntries
  cases d.current with
  | none => simp
  | some opened =>
      obtain ⟨name, entries⟩ := opened
      by_cases hempty : (name.isEmpty && entries.isEmpty) = true
      · have hentries : entries = #[] := by
          rw [Bool.and_eq_true, Array.isEmpty_iff] at hempty
          exact hempty.2
        simp only [hempty, if_true]
        simp [hentries]
      · simp only [hempty]
        simp

/-- What is placed when the open section is left. -/
theorem placed_leave (d : Draft) :
    d.leave.placed.toList.flatMap Directive.contents =
        d.placed.toList.flatMap Directive.contents ++ d.openEntries.map (d.sectionName, ·) ∧
      d.leave.placed.toList.filter Directive.isDeclaration =
        d.placed.toList.filter Directive.isDeclaration := by
  rcases (leave_cases d).2 with ⟨hplaced, hentries⟩ | hplaced
  · simp [hplaced, hentries]
  · simp [hplaced, Directive.contents, Directive.isDeclaration]

variable {d : Draft} {sts : List Statement} {st : Statement}

theorem Holds.add_entries (h : d.Holds sts)
    (hadd : d.add st = (st.entries d.bits).foldl addEntry d) (hmode : st.mode? = none)
    (hsection : st.section? = none) (hdeclarations : st.declarations = []) :
    (d.add st).Holds (sts ++ [st]) := by
  obtain ⟨hbits, hplaced, hname, hentries⟩ := foldl_addEntry (st.entries d.bits) d
  rw [hadd]
  constructor
  · rw [hbits, modeAfter_concat, hmode, h.bits]
    rfl
  · rw [hname, sectionAfter_concat, hsection, h.name]
    rfl
  · rw [hplaced, hname, hentries, List.map_append, ← List.append_assoc, h.contents,
      contentsFrom_append]
    simp [contentsFrom, h.bits, h.name]
  · simp [hplaced, h.declarations, hdeclarations]

theorem Holds.add_declarations (h : d.Holds sts)
    (hadd : d.add st = { d with placed := d.placed ++ st.declarations }) (hmode : st.mode? = none)
    (hsection : st.section? = none) (hentries : ∀ bits, st.entries bits = [])
    (hcontents : st.declarations.flatMap Directive.contents = [])
    (hdeclares : st.declarations.filter Directive.isDeclaration = st.declarations) :
    (d.add st).Holds (sts ++ [st]) := by
  rw [hadd]
  constructor
  · rw [modeAfter_concat, hmode]
    exact h.bits
  · rw [sectionAfter_concat, hsection]
    exact h.name
  · rw [contentsFrom_append, ← h.contents]
    simp [contentsFrom, hentries, hcontents, sectionName, openEntries]
  · simp [h.declarations, hdeclares]

/-- A statement adds what it spells. -/
theorem Holds.add (h : d.Holds sts) (st : Statement) : (d.add st).Holds (sts ++ [st]) := by
  cases st with
  | label name => exact h.add_entries rfl rfl rfl rfl
  | instruction mnemonic operands => exact h.add_entries rfl rfl rfl rfl
  | data values => exact h.add_entries List.foldl_map.symm rfl rfl rfl
  | imports names =>
      apply h.add_declarations rfl rfl rfl (fun _ => rfl)
      · simp [Statement.declarations, List.flatMap_map, Directive.contents]
      · simp [Statement.declarations, List.filter_map, Directive.isDeclaration, Function.comp_def]
  | exports names =>
      apply h.add_declarations rfl rfl rfl (fun _ => rfl)
      · simp [Statement.declarations, List.flatMap_map, Directive.contents]
      · simp [Statement.declarations, List.filter_map, Directive.isDeclaration, Function.comp_def]
  | mode bits =>
      constructor
      · rw [modeAfter_concat]
        rfl
      · rw [sectionAfter_concat]
        exact h.name
      · rw [contentsFrom_append, ← h.contents]
        exact (List.append_nil _).symm
      · rw [List.flatMap_append, ← h.declarations]
        exact (List.append_nil _).symm
  | enter name =>
      obtain ⟨hcontents, hdeclarations⟩ := placed_leave d
      constructor
      · rw [modeAfter_concat]
        exact (leave_cases d).1.trans h.bits
      · rw [sectionAfter_concat]
        rfl
      · rw [contentsFrom_append, ← h.contents, ← hcontents]
        simp [Draft.add, openEntries, contentsFrom, Statement.entries]
      · simp [Draft.add, hdeclarations, h.declarations, Statement.declarations]

theorem Holds.foldl_add (h : d.Holds sts) (sts' : List Statement) :
    (sts'.foldl Draft.add d).Holds (sts ++ sts') := by
  induction sts' generalizing d sts with
  | nil => simpa using h
  | cons st sts' ih =>
      rw [← List.singleton_append, ← List.append_assoc]
      exact ih (h.add st)

end Draft

/-- A listing holds the entries and the declarations of its statements, in order. -/
theorem ofStatements_contents (sts : List Statement) :
    (ofStatements sts).contents = contentsFrom [] sts ∧
      (ofStatements sts).declarations = sts.flatMap Statement.declarations := by
  have hholds := Draft.holds_nil.foldl_add sts
  obtain ⟨hcontents, hdeclarations⟩ := Draft.placed_leave (sts.foldl Draft.add {})
  exact ⟨hcontents.trans hholds.contents, hdeclarations.trans hholds.declarations⟩

/-- A token sequence up to its end mark has a listing just if the grammar derives lines from it.  The
listing holds the entries of these lines in order, each in the section that was entered last and each
instruction in the mode that was set last, and the declarations in order. -/
theorem ofTokens_grammar {ts : List Token} {eof : Token} (hts : ∀ t ∈ ts, t.kind ≠ .eof)
    (heof : eof.kind = .eof) :
    ((∃ l, ofTokens (ts ++ [eof]) = .ok l) ↔
        ∃ lines, Grammar.Separated .newline Grammar.Line ts lines) ∧
      ∀ l lines, ofTokens (ts ++ [eof]) = .ok l →
        Grammar.Separated .newline Grammar.Line ts lines →
          l.contents = contentsFrom [] lines.flatten ∧
            l.declarations = lines.flatten.flatMap Statement.declarations := by
  have hread := fun sts => @readStatements_eq_ok_iff ts eof hts heof sts
  refine ⟨⟨?_, ?_⟩, ?_⟩
  · rintro ⟨l, hl⟩
    obtain ⟨sts, hsts, _⟩ := map_eq_ok.mp hl
    obtain ⟨lines, hlines, _⟩ := (hread sts).mp hsts
    exact ⟨lines, hlines⟩
  · rintro ⟨lines, hlines⟩
    have hsts := (hread lines.flatten).mpr ⟨lines, hlines, rfl⟩
    exact ⟨_, map_eq_ok.mpr ⟨_, hsts, rfl⟩⟩
  · intro l lines hl hlines
    obtain ⟨sts, hsts, rfl⟩ := map_eq_ok.mp hl
    have hsts' := (hread lines.flatten).mpr ⟨lines, hlines, rfl⟩
    obtain rfl : sts = lines.flatten := Except.ok.inj (hsts.symm.trans hsts')
    exact ofStatements_contents _

/-- Two labels in a line, a section that is entered behind entries, a mode, a declaration between
data. -/
def sampleTokens : List Token :=
  [(.labelDef, "a"), (.labelDef, "b"), (.ident, "push"), (.ident, "RAX"), (.newline, ""),
    (.newline, ""), (.ident, "bits"), (.number 32, "32"), (.newline, ""),
    (.ident, "section"), (.ident, ".data"), (.newline, ""),
    (.ident, "db"), (.number 255, "255"), (.comma, ","), (.stringLit, "x"), (.newline, ""),
    (.ident, "global"), (.ident, "a"), (.comma, ","), (.ident, "c"), (.newline, ""),
    (.labelDef, "c"), (.ident, "mov"), (.openBracket, "["), (.number (-8), "-8"),
    (.closeBracket, "]"), (.comma, ","), (.ident, "eax")].map fun (kind, text) =>
      ⟨kind, text, ⟨1, 1, 0, 0⟩⟩

/-- The listing of the sample; the declarations stand ahead of the section that they were made in. -/
def sampleListing : Listing := ⟨[
  .sectionBlock "" [.label "a", .label "b",
    .instruction ⟨64, "push", [.register ⟨"rax", .qword⟩]⟩],
  .exportSymbol "a", .exportSymbol "c",
  .sectionBlock ".data" [.data [255], .data [120], .label "c",
    .instruction ⟨32, "mov",
      [.memory (.displacement (.imm32 (-8))), .register ⟨"eax", .dword⟩]⟩]]⟩

theorem ofTokens_grammar_sampleTokens :
    ofTokens (sampleTokens ++ [⟨.eof, "", ⟨1, 1, 0, 0⟩⟩]) = .ok sampleListing ∧
    ∃ lines, Grammar.Separated .newline Grammar.Line sampleTokens lines ∧
      sampleListing.contents = contentsFrom [] lines.flatten ∧
      sampleListing.declarations = lines.flatten.flatMap Statement.declarations := by
  have hts : ∀ t ∈ sampleTokens, t.kind ≠ .eof := by decide +kernel
  have hlisting : ofTokens (sampleTokens ++ [⟨.eof, "", ⟨1, 1, 0, 0⟩⟩]) = .ok sampleListing := by
    decide +kernel
  obtain ⟨hiff, hholds⟩ := @ofTokens_grammar sampleTokens ⟨.eof, "", ⟨1, 1, 0, 0⟩⟩ hts rfl
  obtain ⟨lines, hlines⟩ := hiff.mp ⟨_, hlisting⟩
  exact ⟨hlisting, lines, hlines, hholds _ lines hlisting hlines⟩

end Listing

end X64Asm
