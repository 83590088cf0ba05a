import X64Asm.Assembler.Run
import X64Asm.Proofs.Success

/-! # What assembling puts out

Assembling a part of a program is assembling its section entries, one after the other
(`Assembler.assemble_eq`): what else a part calls for changes the symbols alone, and no entry reads
them.  An entry that is assembled adds its contribution to the code, and a label its name with the
length of the code (`Assembled.appends`); an entry that fails adds nothing (`Assembled.unchanged`).

So the code and the labels are those of the entries ahead of the first failure
(`assemble_entries`). -/

namespace X64Asm

/-! ### Entries of a node -/

/-- The section entries of a directive. -/
def Directive.entries : Directive → List SectionEntry
  | importSymbol _ | exportSymbol _ => []
  | sectionBlock _ entries => entries

/-- The section entries of a listing, in its order. -/
def Listing.entries (l : Listing) : List SectionEntry := l.directives.flatMap Directive.entries

/-- The section entries of a node; an operand is not assembled. -/
def Node.entries? : Node → Option (List SectionEntry)
  | listing l => some l.entries
  | directive d => some d.entries
  | entry e => some [e]
  | operand _ => none

/-- The entry that an action assembles. -/
def Action.entry? : Action → Option SectionEntry
  | entry e => some e
  | enter _ _ | declare _ _ => none

theorem filterMap_entry? (es : List SectionEntry) :
    (es.map Action.entry).filterMap Action.entry? = es := by
  rw [List.filterMap_map]
  exact List.filterMap_some

theorem Directive.filterMap_actions (d : Directive) :
    d.actions.filterMap Action.entry? = d.entries := by
  cases d with
  | importSymbol name => rfl
  | exportSymbol name => rfl
  | sectionBlock name entries => exact filterMap_entry? entries

theorem Listing.filterMap_actions (l : Listing) :
    l.actions.filterMap Action.entry? = l.entries := by
  unfold actions entries
  induction l.directives with
  | nil => rfl
  | cons d ds ih =>
      rw [List.flatMap_cons, List.flatMap_cons, List.filterMap_append, ih, d.filterMap_actions]

/-- The entries that the actions of a node assemble are those of the node. -/
theorem Node.actions_of_entries? {node : Node} {es : List SectionEntry}
    (h : node.entries? = some es) :
    ∃ actions, node.actions = .ok actions ∧ actions.filterMap Action.entry? = es := by
  cases node with
  | listing l =>
      cases h
      exact ⟨_, rfl, l.filterMap_actions⟩
  | directive d =>
      cases h
      exact ⟨_, rfl, d.filterMap_actions⟩
  | entry e =>
      cases h
      exact ⟨_, rfl, rfl⟩
  | operand op => cases h

/-! ### What is put out -/

/-- What an entry adds to the code. -/
def Options.contribution (o : Options) : SectionEntry → Except Failure Bytes
  | .instruction i => (i.encode o.imm16).map (·.toList)
  | .data bytes => .ok (if o.emitData then bytes else [])
  | .label _ => .ok []

/-- The labels among entries that add the given bytes, each with the length of the code ahead of
it. -/
def labelOffsets : Nat → List SectionEntry → List Bytes → List (String × Nat)
  | offset, .label name :: es, bytes :: chunks =>
    (name, offset) :: labelOffsets (offset + bytes.length) es chunks
  | offset, _ :: es, bytes :: chunks => labelOffsets (offset + bytes.length) es chunks
  | _, _, _ => []

namespace Assembler

/-- The second state has the output of the first and after it that of the entries, which is given
entry by entry. -/
structure Appends (s t : Assembler) (es : List SectionEntry) (chunks : List Bytes) : Prop where
  options : t.options = s.options
  contributions : es.mapM s.options.contribution = .ok chunks
  code : t.code.toList = s.code.toList ++ chunks.flatten
  labels : t.labels.toList = s.labels.toList ++ labelOffsets s.code.size es chunks

variable {s t u : Assembler} {e : SectionEntry} {es : List SectionEntry} {f : Failure}

theorem Appends.nil (s : Assembler) : s.Appends s [] [] where
  options := rfl
  contributions := rfl
  code := (List.append_nil _).symm
  labels := (List.append_nil _).symm

theorem labelOffsets_cons (offset : Nat) (e : SectionEntry) (es : List SectionEntry) (bytes : Bytes)
    (chunks : List Bytes) :
    labelOffsets offset (e :: es) (bytes :: chunks) =
      labelOffsets offset [e] [bytes] ++ labelOffsets (offset + bytes.length) es chunks := by
  cases e <;> simp [labelOffsets]

/-- Counters and symbols do not matter. -/
theorem Appends.congr {chunks : List Bytes} (h : s.Appends t es chunks)
    (hoptions : u.options = t.options) (hcode : u.code = t.code) (hlabels : u.labels = t.labels) :
    s.Appends u es chunks where
  options := hoptions.trans h.options
  contributions := h.contributions
  code := by rw [hcode, h.code]
  labels := by rw [hlabels, h.labels]

/-- One entry more in front. -/
theorem Appends.cons {bytes : Bytes} {chunks : List Bytes} (h : s.Appends t [e] [bytes])
    (hs : t.Appends u es chunks) : s.Appends u (e :: es) (bytes :: chunks) where
  options := hs.options.trans h.options
  contributions := by
    have hbytes := h.contributions
    rw [List.mapM_cons] at hbytes ⊢
    obtain ⟨bytes', hbytes', hnil⟩ := bind_eq_ok.mp hbytes
    cases hnil
    have hchunks := hs.contributions
    rw [h.options] at hchunks
    exact bind_eq_ok.mpr ⟨bytes, hbytes', bind_eq_ok.mpr ⟨chunks, hchunks, rfl⟩⟩
  code := by
    rw [hs.code, h.code, List.flatten_cons, List.flatten_cons, List.flatten_nil, List.append_nil,
      List.append_assoc]
  labels := by
    have hsize : t.code.size = s.code.size + bytes.length := by
      rw [← Array.length_toList, h.code]
      simp
    rw [hs.labels, h.labels, hsize, List.append_assoc, ← labelOffsets_cons]

/-! ### One entry -/

/-- Output goes on behind the code, or the limit is passed and nothing changes. -/
theorem output_cases (s : Assembler) (bytes : Bytes) :
    s.output bytes = done { s with code := s.code ++ bytes } ∨
      ∃ f, s.output bytes = ⟨s, some f⟩ := by
  unfold output
  by_cases hfull : s.outputFull bytes.length = true
  · rw [if_pos hfull]
    exact .inr ⟨_, rfl⟩
  · rw [if_neg hfull]
    exact .inl rfl

/-- What comes of an entry: a failure, which only counts, or more code, or one more label. -/
inductive Assembled (s : Assembler) : SectionEntry → Outcome → Prop
  | failed (e : SectionEntry) (statements labels : Nat) (f : Failure) :
      Assembled s e ⟨{ s with statementCount := statements, labelCount := labels }, some f⟩
  | code {e : SectionEntry} {bytes : Bytes} (contribution : s.options.contribution e = .ok bytes)
      (noLabel : ∀ name, e ≠ .label name) :
      Assembled s e
        ⟨{ s with statementCount := s.statementCount + 1, code := s.code ++ bytes }, none⟩
  | label (name : String) :
      Assembled s (.label name)
        ⟨{ s with
            statementCount := s.statementCount + 1
            labelCount := s.labelCount + 1
            symbols := s.symbols.intern name
            labels := s.labels.push (name, s.code.size) }, none⟩

/-- The state with one more entry counted. -/
def counted (s : Assembler) : Assembler := { s with statementCount := s.statementCount + 1 }

theorem addEntry_full (h : s.options.limits.statements < s.counted.statementCount)
    (e : SectionEntry) :
    s.addEntry e = s.counted.report (.exhausted .statements s.options.limits.statements) :=
  if_pos h

theorem addEntry_room (h : ¬ s.options.limits.statements < s.counted.statementCount)
    (e : SectionEntry) :
    s.addEntry e =
      match e with
      | .instruction i => s.counted.addInstruction i
      | .data bytes => s.counted.addData bytes
      | .label name => s.counted.addLabel name :=
  if_neg h

theorem addLabel_full (h : s.options.limits.labels < s.labelCount + 1) (name : String) :
    s.addLabel name =
      report { s with labelCount := s.labelCount + 1 } (.exhausted .labels s.options.limits.labels) :=
  if_pos h

theorem addLabel_room (h : ¬ s.options.limits.labels < s.labelCount + 1) (name : String) :
    s.addLabel name = done { s with
      labelCount := s.labelCount + 1
      symbols := s.symbols.intern name
      labels := s.labels.push (name, s.code.size) } :=
  if_neg h

theorem assembled_addEntry (s : Assembler) (e : SectionEntry) : s.Assembled e (s.addEntry e) := by
  by_cases hlimit : s.options.limits.statements < s.counted.statementCount
  · rw [addEntry_full hlimit]
    exact .failed e _ _ _
  · rw [addEntry_room hlimit]
    cases e with
    | instruction i =>
        show s.Assembled _ (s.counted.addInstruction i)
        unfold addInstruction
        cases hcode : i.encode s.counted.options.imm16 with
        | error f => exact .failed _ _ _ f
        | ok buf =>
            have hbytes : s.options.contribution (.instruction i) = .ok buf.toList :=
              map_eq_ok.mpr ⟨buf, hcode, rfl⟩
            show s.Assembled _ (s.counted.output buf.toList)
            rcases output_cases s.counted buf.toList with h | ⟨f, h⟩
            · rw [h]
              exact .code hbytes (by simp)
            · rw [h]
              exact .failed _ _ _ f
    | data bytes =>
        show s.Assembled _ (s.counted.addData bytes)
        unfold addData
        by_cases hemit : s.counted.options.emitData = true
        · have hbytes : s.options.contribution (.data bytes) = .ok bytes :=
            congrArg Except.ok (if_pos hemit)
          rw [if_pos hemit]
          rcases output_cases s.counted bytes with h | ⟨f, h⟩
          · rw [h]
            exact .code hbytes (by simp)
          · rw [h]
            exact .failed _ _ _ f
        · have hbytes : s.options.contribution (.data bytes) = .ok [] :=
            congrArg Except.ok (if_neg hemit)
          rw [if_neg hemit]
          simpa [done, counted] using Assembled.code hbytes (by simp)
    | label name =>
        show s.Assembled _ (s.counted.addLabel name)
        by_cases hlabels : s.counted.options.limits.labels < s.counted.labelCount + 1
        · rw [addLabel_full hlabels]
          exact .failed _ _ _ _
        · rw [addLabel_room hlabels]
          exact .label name

/-- An entry that is assembled adds its contribution. -/
theorem Assembled.appends {o : Outcome} (h : s.Assembled e o) (hdone : o.failure = none) :
    ∃ bytes, s.Appends o.state [e] [bytes] := by
  cases h with
  | failed _ _ _ f => cases hdone
  | @code _ bytes contribution noLabel =>
      refine ⟨bytes, rfl, bind_eq_ok.mpr ⟨bytes, contribution, rfl⟩, by simp, ?_⟩
      cases e with
      | label name => exact absurd rfl (noLabel name)
      | instruction i => simp [labelOffsets]
      | data bytes => simp [labelOffsets]
  | label name => exact ⟨[], rfl, rfl, by simp, by simp [labelOffsets]⟩

/-- An entry that fails leaves the output as it was. -/
theorem Assembled.unchanged {o : Outcome} (h : s.Assembled e o) (hfailed : o.failure = some f) :
    o.state.options = s.options ∧ o.state.code = s.code ∧ o.state.labels = s.labels := by
  cases h with
  | failed => exact ⟨rfl, rfl, rfl⟩
  | code => cases hfailed
  | label => cases hfailed

/-! ### Many entries -/

/-- A run goes well if its first action does and so does the rest from there. -/
theorem run_cons_iff {action : Action} {actions : List Action} :
    s.run (action :: actions) = ⟨t, none⟩ ↔
      ∃ u, s.perform action = ⟨u, none⟩ ∧ u.run actions = ⟨t, none⟩ := by
  rw [run]
  cases s.perform action with
  | mk after failure => cases failure <;> simp

/-- Entries that are all assembled add their contributions in order. -/
theorem appends_run (h : s.run (es.map .entry) = ⟨t, none⟩) : ∃ chunks, s.Appends t es chunks := by
  induction es generalizing s with
  | nil =>
      cases h
      exact ⟨[], .nil _⟩
  | cons e es ih =>
      obtain ⟨after, hafter, h⟩ := run_cons_iff.mp h
      have hdone : (s.addEntry e).failure = none := congrArg Outcome.failure hafter
      obtain ⟨bytes, hbytes⟩ := (assembled_addEntry s e).appends hdone
      obtain ⟨chunks, hchunks⟩ := ih h
      have hstate : (s.addEntry e).state = after := congrArg Outcome.state hafter
      exact ⟨bytes :: chunks, (hstate ▸ hbytes).cons hchunks⟩

/-- A run fails at one of its actions, and all ahead of it are performed. -/
theorem run_failed {actions : List Action} (h : s.run actions = ⟨t, some f⟩) :
    ∃ k action middle, actions[k]? = some action ∧ s.run (actions.take k) = ⟨middle, none⟩ ∧
      middle.perform action = ⟨t, some f⟩ := by
  induction actions generalizing s with
  | nil => cases h
  | cons action actions ih =>
      rw [run] at h
      split at h
      · next after hafter =>
        obtain ⟨k, failing, middle, hk, hrun, hfail⟩ := ih h
        refine ⟨k + 1, failing, middle, hk, ?_, hfail⟩
        rw [List.take_succ_cons, run, hafter]
        exact hrun
      · exact ⟨0, action, s, rfl, rfl, h⟩

/-! ### Symbols -/

/-- The same state with other symbols. -/
def withSymbols (s : Assembler) (symbols : SymbolTable) : Assembler := { s with symbols }

end Assembler

/-- The same outcome with other symbols. -/
def Outcome.withSymbols (o : Outcome) (symbols : SymbolTable) : Outcome :=
  ⟨o.state.withSymbols symbols, o.failure⟩

namespace Assembler

variable (s : Assembler) (symbols : SymbolTable)

theorem output_withSymbols (bytes : Bytes) :
    (s.withSymbols symbols).output bytes = (s.output bytes).withSymbols symbols := by
  have hfull : (s.withSymbols symbols).outputFull bytes.length = s.outputFull bytes.length := rfl
  unfold output
  rw [hfull]
  by_cases h : s.outputFull bytes.length = true
  · rw [if_pos h, if_pos h]
    rfl
  · rw [if_neg h, if_neg h]
    rfl

theorem addInstruction_withSymbols (i : Instruction) :
    (s.withSymbols symbols).addInstruction i = (s.addInstruction i).withSymbols symbols := by
  have hlayout : (s.withSymbols symbols).options.imm16 = s.options.imm16 := rfl
  unfold addInstruction
  rw [hlayout]
  cases i.encode s.options.imm16 with
  | error f => rfl
  | ok buf => exact output_withSymbols s symbols buf.toList

theorem addData_withSymbols (bytes : Bytes) :
    (s.withSymbols symbols).addData bytes = (s.addData bytes).withSymbols symbols := by
  have hemit : (s.withSymbols symbols).options.emitData = s.options.emitData := rfl
  unfold addData
  rw [hemit]
  by_cases h : s.options.emitData = true
  · rw [if_pos h, if_pos h]
    exact output_withSymbols s symbols bytes
  · rw [if_neg h, if_neg h]
    rfl

theorem addLabel_withSymbols (name : String) :
    ∃ after, (s.withSymbols symbols).addLabel name = (s.addLabel name).withSymbols after := by
  by_cases h : s.options.limits.labels < s.labelCount + 1
  · rw [addLabel_full h, addLabel_full (s := s.withSymbols symbols) h]
    exact ⟨symbols, rfl⟩
  · rw [addLabel_room h, addLabel_room (s := s.withSymbols symbols) h]
    exact ⟨symbols.intern name, rfl⟩

/-- No entry reads the symbols. -/
theorem addEntry_withSymbols (e : SectionEntry) :
    ∃ after, (s.withSymbols symbols).addEntry e = (s.addEntry e).withSymbols after := by
  by_cases h : s.options.limits.statements < s.counted.statementCount
  · rw [addEntry_full h, addEntry_full (s := s.withSymbols symbols) h]
    exact ⟨symbols, rfl⟩
  · rw [addEntry_room h, addEntry_room (s := s.withSymbols symbols) h]
    cases e with
    | instruction i => exact ⟨symbols, addInstruction_withSymbols s.counted symbols i⟩
    | data bytes => exact ⟨symbols, addData_withSymbols s.counted symbols bytes⟩
    | label name => exact addLabel_withSymbols s.counted symbols name

/-- The symbols aside, a run does what the entries in it do. -/
theorem run_withSymbols (actions : List Action) : ∃ after, (s.withSymbols symbols).run actions =
    (s.run ((actions.filterMap Action.entry?).map .entry)).withSymbols after := by
  induction actions generalizing s symbols with
  | nil => exact ⟨symbols, rfl⟩
  | cons action actions ih =>
      cases action with
      | enter name count => exact ih s symbols
      | declare name kind => exact ih s (symbols.declare name kind)
      | entry e =>
          obtain ⟨symbols', he⟩ := addEntry_withSymbols s symbols e
          rw [run, perform, he, List.filterMap_cons, Action.entry?, List.map_cons, run, perform]
          cases s.addEntry e with
          | mk after failure =>
              cases failure with
              | none => exact ih after symbols'
              | some f => exact ⟨symbols', rfl⟩

/-- A run that goes well adds what the entries in it contribute. -/
theorem appends_of_run {s t : Assembler} {actions : List Action} (h : s.run actions = ⟨t, none⟩) :
    ∃ chunks, s.Appends t (actions.filterMap Action.entry?) chunks := by
  obtain ⟨symbols, hrun⟩ := run_withSymbols s s.symbols actions
  have hentries : (s.run ((actions.filterMap Action.entry?).map .entry)).withSymbols symbols =
      ⟨t, none⟩ := hrun.symm.trans h
  have hdone : (s.run ((actions.filterMap Action.entry?).map .entry)).failure = none :=
    congrArg Outcome.failure hentries
  obtain ⟨chunks, hchunks⟩ := appends_run (congrArg (Outcome.mk _) hdone)
  have hstate : (s.run ((actions.filterMap Action.entry?).map .entry)).state.withSymbols symbols =
      t := congrArg Outcome.state hentries
  rw [← hstate]
  exact ⟨chunks, hchunks.congr rfl rfl rfl⟩

/-- The symbols aside, assembling a node is assembling its entries. -/
theorem assemble_eq {node : Node} {es : List SectionEntry} (h : node.entries? = some es) :
    ∃ symbols, s.assemble node = (s.run (es.map .entry)).withSymbols symbols := by
  obtain ⟨actions, hactions, rfl⟩ := Node.actions_of_entries? h
  unfold assemble
  rw [hactions]
  exact run_withSymbols s s.symbols actions

/-- Assembling a node puts out what its entries contribute, each label with the length of the code at
its place.  If it fails, one entry fails with that failure when those ahead of it have been assembled,
and the output is theirs. -/
theorem assemble_entries {node : Node} {es : List SectionEntry} (h : node.entries? = some es)
    (s : Assembler) :
    ((s.assemble node).failure = none → ∃ last chunks, s.run (es.map .entry) = ⟨last, none⟩ ∧
      s.Appends (s.assemble node).state es chunks) ∧
    ∀ f, (s.assemble node).failure = some f →
      ∃ k entry middle chunks, es[k]? = some entry ∧
        s.run ((es.take k).map .entry) = ⟨middle, none⟩ ∧
        (middle.addEntry entry).failure = some f ∧
        (s.assemble node).state.code = middle.code ∧
        (s.assemble node).state.labels = middle.labels ∧
        s.Appends (s.assemble node).state (es.take k) chunks := by
  obtain ⟨symbols, hassemble⟩ := assemble_eq s h
  rw [hassemble]
  constructor
  · intro hdone
    obtain ⟨last, hlast⟩ : ∃ last, s.run (es.map .entry) = ⟨last, none⟩ := by
      exact ⟨(s.run (es.map .entry)).state, congrArg (Outcome.mk _) hdone⟩
    obtain ⟨chunks, hchunks⟩ := appends_run hlast
    rw [hlast]
    exact ⟨last, chunks, rfl, hchunks.congr rfl rfl rfl⟩
  · intro f hfailed
    obtain ⟨k, action, middle, hk, hmiddle, hperform⟩ :=
      run_failed (show s.run (es.map .entry) = ⟨_, some f⟩ from congrArg (Outcome.mk _) hfailed)
    rw [List.getElem?_map, Option.map_eq_some_iff] at hk
    obtain ⟨entry, hentry, rfl⟩ := hk
    rw [← List.map_take] at hmiddle
    obtain ⟨chunks, hchunks⟩ := appends_run hmiddle
    have hfailure : (middle.addEntry entry).failure = some f := congrArg Outcome.failure hperform
    have hstate : (middle.addEntry entry).state = (s.run (es.map .entry)).state := by
      show (middle.perform (.entry entry)).state = _
      rw [hperform]
    obtain ⟨hoptions, hcode, hlabels⟩ := (assembled_addEntry middle entry).unchanged hfailure
    rw [hstate] at hoptions hcode hlabels
    exact ⟨k, entry, middle, chunks, hentry, hmiddle, hfailure, hcode, hlabels,
      hchunks.congr hoptions hcode hlabels⟩

/-- Two sections and a declaration between them; the mnemonic `hlt` is not known. -/
def brokenListing : Listing := ⟨[
  .sectionBlock ".text" [.label "f", .instruction ⟨64, "push", [.register ⟨"rax", .qword⟩]⟩],
  .exportSymbol "g",
  .sectionBlock ".text" [.label "g", .data [1, 2], .instruction ⟨64, "hlt", []⟩, .label "h"]]⟩

theorem assemble_entries_brokenListing :
    (({} : Assembler).assemble (.listing brokenListing)).failure =
      some (.diagnostic (.noEncoding "hlt")) ∧
    ∃ k entry middle chunks, brokenListing.entries[k]? = some entry ∧
      ({} : Assembler).run ((brokenListing.entries.take k).map .entry) = ⟨middle, none⟩ ∧
      (middle.addEntry entry).failure = some (.diagnostic (.noEncoding "hlt")) ∧
      ({} : Assembler).Appends (({} : Assembler).assemble (.listing brokenListing)).state
        (brokenListing.entries.take k) chunks := by
  have hfailed : (({} : Assembler).assemble (.listing brokenListing)).failure =
      some (.diagnostic (.noEncoding "hlt")) := by
    decide +kernel
  have hentries : (Node.listing brokenListing).entries? = some brokenListing.entries := rfl
  obtain ⟨k, entry, middle, chunks, hentry, hmiddle, hfailure, _, _, happends⟩ :=
    (assemble_entries hentries {}).2 _ hfailed
  exact ⟨hfailed, k, entry, middle, chunks, hentry, hmiddle, hfailure, happends⟩

end Assembler

end X64Asm
