import X64Asm.Proofs.SymbolKinds

/-! # Limits

Limits decide whether a program is assembled, and nothing else.  A listing is assembled just if each
of its entries can be, and the entries, the labels and the bytes are no more than the limits allow
(`Options.assemble_done_iff`); what is put out does not depend on the limits
(`Options.assemble_eq_unlimited`).

The counts are compared entry by entry, each after it has been raised.  `Assembler.HasRoom` says of a
state that a number of entries would keep all counts within the limits. -/

namespace X64Asm

/-- The largest limits that words of 64 bits hold. -/
def Limits.largest : Limits where
  statements := wordCount 64 - 1
  labels := wordCount 64 - 1
  outputBytes := wordCount 64 - 1
  sourceBytes := wordCount 64 - 1

/-- Each limit is a number of 64 bits. -/
structure Limits.Fits (l : Limits) : Prop where
  statements : l.statements < wordCount 64
  labels : l.labels < wordCount 64
  outputBytes : l.outputBytes < wordCount 64
  sourceBytes : l.sourceBytes < wordCount 64

/-- The symbols after an action. -/
def SymbolTable.after (t : SymbolTable) : Action → SymbolTable
  | .declare name kind => t.declare name kind
  | .entry (.label name) => t.intern name
  | .enter _ _ | .entry (.instruction _) | .entry (.data _) => t

namespace Assembler

/-- The entries, with `size` bytes of output, keep the counts within the limits. -/
structure HasRoom (s : Assembler) (es : List SectionEntry) (size : Nat) : Prop where
  statements : s.statementCount + es.length ≤ s.options.limits.statements
  labels : s.labelCount + (es.filterMap SectionEntry.label?).length ≤ s.options.limits.labels
  output : s.code.size + size ≤ s.options.limits.outputBytes

variable {s t : Assembler} {e : SectionEntry} {es : List SectionEntry} {bytes : Bytes} {n : Nat}

/-! ### One entry -/

theorem output_iff : s.output bytes = ⟨t, none⟩ ↔
    s.code.size + bytes.length ≤ s.options.limits.outputBytes ∧
      t = { s with code := s.code ++ bytes } := by
  unfold output
  by_cases hfull : s.outputFull bytes.length = true
  · rw [if_pos hfull]
    rw [outputFull, decide_eq_true_eq] at hfull
    exact ⟨fun h => (by cases h), fun h => absurd hfull (Nat.not_lt.mpr h.1)⟩
  · rw [if_neg hfull]
    rw [outputFull, decide_eq_true_eq, Nat.not_lt] at hfull
    refine ⟨fun h => ⟨hfull, (congrArg Outcome.state h).symm⟩, fun h => ?_⟩
    rw [h.2]
    rfl

theorem output_done_iff : (s.output bytes).failure = none ↔
    s.code.size + bytes.length ≤ s.options.limits.outputBytes := by
  refine ⟨fun h => (output_iff.mp (congrArg (Outcome.mk _) h)).1, fun h => ?_⟩
  rw [output_iff.mpr ⟨h, rfl⟩]

theorem addInstruction_done_iff (i : Instruction) : (s.addInstruction i).failure = none ↔
    ∃ bytes, s.options.contribution (.instruction i) = .ok bytes ∧
      s.code.size + bytes.length ≤ s.options.limits.outputBytes := by
  cases hcode : i.encode s.options.imm16 with
  | error f =>
      have hbytes : s.options.contribution (.instruction i) = .error f := by
        rw [Options.contribution, hcode]
        rfl
      have hadd : s.addInstruction i = ⟨s, some f⟩ := by rw [addInstruction, hcode]
      simp [hadd, hbytes]
  | ok buf =>
      have hbytes : s.options.contribution (.instruction i) = .ok buf.toList :=
        map_eq_ok.mpr ⟨buf, hcode, rfl⟩
      have hadd : s.addInstruction i = s.output buf.toList := by rw [addInstruction, hcode]
      rw [hadd, hbytes, output_done_iff]
      simp

theorem addData_done_iff (h : s.code.size ≤ s.options.limits.outputBytes) (data : Bytes) :
    (s.addData data).failure = none ↔ ∃ bytes, s.options.contribution (.data data) = .ok bytes ∧
      s.code.size + bytes.length ≤ s.options.limits.outputBytes := by
  unfold addData
  by_cases hemit : s.options.emitData = true
  · rw [if_pos hemit, output_done_iff]
    simp [Options.contribution, hemit]
  · rw [if_neg hemit]
    simpa [Options.contribution, hemit, done] using h

theorem addLabel_done_iff (name : String) : (s.addLabel name).failure = none ↔
    s.labelCount + 1 ≤ s.options.limits.labels := by
  by_cases hlabels : s.options.limits.labels < s.labelCount + 1
  · rw [addLabel_full hlabels]
    simpa [report] using hlabels
  · rw [addLabel_room hlabels]
    simpa [done] using hlabels

/-- An entry is assembled just if it adds bytes and there is room for it. -/
theorem addEntry_done_iff (h : s.HasRoom [] 0) : (s.addEntry e).failure = none ↔
    ∃ bytes, s.options.contribution e = .ok bytes ∧ s.HasRoom [e] bytes.length := by
  by_cases hlimit : s.options.limits.statements < s.counted.statementCount
  · rw [addEntry_full hlimit]
    refine ⟨fun hdone => (by cases hdone), ?_⟩
    rintro ⟨bytes, _, hroom⟩
    exact absurd hlimit (Nat.not_lt.mpr hroom.statements)
  · rw [addEntry_room hlimit]
    have hstatements := Nat.not_lt.mp hlimit
    cases e with
    | instruction i =>
        refine (addInstruction_done_iff i).trans ?_
        constructor
        · rintro ⟨bytes, hbytes, houtput⟩
          exact ⟨bytes, hbytes, hstatements, h.labels, houtput⟩
        · rintro ⟨bytes, hbytes, hroom⟩
          exact ⟨bytes, hbytes, hroom.output⟩
    | data data =>
        refine (addData_done_iff (s := s.counted) h.output data).trans ?_
        constructor
        · rintro ⟨bytes, hbytes, houtput⟩
          exact ⟨bytes, hbytes, hstatements, h.labels, houtput⟩
        · rintro ⟨bytes, hbytes, hroom⟩
          exact ⟨bytes, hbytes, hroom.output⟩
    | label name =>
        refine (addLabel_done_iff name).trans ?_
        constructor
        · intro hlabels
          exact ⟨[], rfl, hstatements, hlabels, h.output⟩
        · rintro ⟨bytes, _, hroom⟩
          exact hroom.labels

theorem assembled_of_addEntry {o : Outcome} (h : s.addEntry e = o) : s.Assembled e o :=
  h ▸ assembled_addEntry s e

/-- An entry that is assembled is counted, and so is its label. -/
theorem Assembled.counts (h : s.Assembled e ⟨t, none⟩) :
    t.options = s.options ∧ t.statementCount = s.statementCount + 1 ∧
      t.labelCount = s.labelCount + e.label?.toList.length := by
  cases h with
  | code _ noLabel =>
      rw [SectionEntry.label?_eq_none noLabel]
      exact ⟨rfl, rfl, rfl⟩
  | label name => exact ⟨rfl, rfl, rfl⟩

theorem size_append (code : Array UInt8) (bytes : Bytes) :
    (code ++ bytes).size = code.size + bytes.length := by
  rw [← Array.length_toList, Array.toList_appendList, List.length_append, Array.length_toList]

theorem Assembled.size (h : s.Assembled e ⟨t, none⟩)
    (hbytes : s.options.contribution e = .ok bytes) :
    t.code.size = s.code.size + bytes.length := by
  cases h with
  | code contribution _ =>
      obtain rfl := Except.ok.inj (contribution.symm.trans hbytes)
      exact size_append s.code _
  | label name =>
      cases hbytes
      rfl

theorem length_labels_cons (e : SectionEntry) (es : List SectionEntry) :
    ((e :: es).filterMap SectionEntry.label?).length =
      e.label?.toList.length + (es.filterMap SectionEntry.label?).length := by
  cases hlabel : e.label? <;> simp [hlabel, Nat.add_comm]

/-- What is left after an entry is what there was, less the entry. -/
theorem Assembled.hasRoom_iff (h : s.Assembled e ⟨t, none⟩)
    (hbytes : s.options.contribution e = .ok bytes) :
    t.HasRoom es n ↔ s.HasRoom (e :: es) (bytes.length + n) := by
  obtain ⟨hoptions, hstatements, hlabels⟩ := h.counts
  have hcode := h.size hbytes
  constructor
  · rintro ⟨h1, h2, h3⟩
    rw [hoptions] at h1 h2 h3
    refine ⟨?_, ?_, ?_⟩
    · rw [List.length_cons]
      omega
    · rw [length_labels_cons]
      omega
    · omega
  · rintro ⟨h1, h2, h3⟩
    rw [List.length_cons] at h1
    rw [length_labels_cons] at h2
    refine ⟨?_, ?_, ?_⟩
    all_goals
      rw [hoptions]
      omega

/-! ### Many entries -/

theorem HasRoom.first (h : s.HasRoom (e :: es) (bytes.length + n)) : s.HasRoom [e] bytes.length where
  statements := by
    have hle := h.statements
    rw [List.length_cons] at hle
    rw [List.length_singleton]
    omega
  labels := by
    have hle := h.labels
    rw [length_labels_cons] at hle ⊢
    rw [List.filterMap_nil, List.length_nil]
    omega
  output := by
    have hle := h.output
    omega

/-- A run goes well just if each of its entries adds bytes and there is room for all of them. -/
theorem run_done_iff {actions : List Action} (h : s.HasRoom [] 0) :
    (s.run actions).failure = none ↔
      ∃ chunks, (actions.filterMap Action.entry?).mapM s.options.contribution = .ok chunks ∧
        s.HasRoom (actions.filterMap Action.entry?) chunks.flatten.length := by
  induction actions generalizing s with
  | nil => exact ⟨fun _ => ⟨[], rfl, h⟩, fun _ => rfl⟩
  | cons action actions ih =>
      cases action with
      | enter name count => exact ih h
      | declare name kind =>
          have hdeclared := @ih { s with symbols := s.symbols.declare name kind }
            ⟨h.statements, h.labels, h.output⟩
          refine hdeclared.trans ⟨?_, ?_⟩
          · rintro ⟨chunks, hchunks, hroom⟩
            exact ⟨chunks, hchunks, hroom.statements, hroom.labels, hroom.output⟩
          · rintro ⟨chunks, hchunks, hroom⟩
            exact ⟨chunks, hchunks, hroom.statements, hroom.labels, hroom.output⟩
      | entry e =>
          rw [run, perform, List.filterMap_cons, Action.entry?]
          have hdone := addEntry_done_iff (e := e) h
          cases hadd : s.addEntry e with
          | mk after failure =>
              rw [hadd] at hdone
              cases failure with
              | some f =>
                  refine ⟨fun hnone => (by cases hnone), ?_⟩
                  rintro ⟨chunks, hchunks, hroom⟩
                  obtain ⟨bytes, rest, hbytes, _, rfl⟩ := mapM_cons_eq_ok.mp hchunks
                  rw [List.flatten_cons, List.length_append] at hroom
                  cases hdone.mpr ⟨bytes, hbytes, hroom.first⟩
              | none =>
                  obtain ⟨bytes, hbytes, hfirst⟩ := hdone.mp rfl
                  have hassembled := assembled_of_addEntry hadd
                  have hafter : after.HasRoom [] 0 := (hassembled.hasRoom_iff hbytes).mpr hfirst
                  show (after.run actions).failure = none ↔ _
                  rw [ih hafter, hassembled.counts.1]
                  constructor
                  · rintro ⟨chunks, hchunks, hroom⟩
                    refine ⟨bytes :: chunks,
                      mapM_cons_eq_ok.mpr ⟨bytes, chunks, hbytes, hchunks, rfl⟩, ?_⟩
                    rw [List.flatten_cons, List.length_append]
                    exact (hassembled.hasRoom_iff hbytes).mp hroom
                  · rintro ⟨chunks, hchunks, hroom⟩
                    obtain ⟨bytes', rest, hbytes', hrest, rfl⟩ := mapM_cons_eq_ok.mp hchunks
                    obtain rfl := Except.ok.inj (hbytes.symm.trans hbytes')
                    rw [List.flatten_cons, List.length_append] at hroom
                    exact ⟨rest, hrest, (hassembled.hasRoom_iff hbytes).mpr hroom⟩

/-- A run that goes well does to the symbols what its actions do. -/
theorem symbols_of_run {actions : List Action} (h : s.run actions = ⟨t, none⟩) :
    t.symbols = actions.foldl SymbolTable.after s.symbols := by
  induction actions generalizing s with
  | nil =>
      cases h
      rfl
  | cons action actions ih =>
      obtain ⟨after, hafter, h⟩ := run_cons_iff.mp h
      rw [ih h, List.foldl_cons]
      congr 1
      cases action with
      | enter name count =>
          cases hafter
          rfl
      | declare name kind =>
          cases hafter
          rfl
      | entry e =>
          cases assembled_of_addEntry hafter with
          | code _ noLabel =>
              cases e with
              | label name => exact absurd rfl (noLabel name)
              | instruction i => rfl
              | data bytes => rfl
          | label name => rfl

end Assembler

/-! ### Listings -/

namespace Options

/-- The same options with limits that are as large as they can be. -/
def unlimited (o : Options) : Options := { o with limits := .largest }

/-- What comes of a listing that is assembled from the start under the options. -/
def assemble (o : Options) (l : Listing) : Outcome :=
  ({ options := o } : Assembler).assemble (.listing l)

variable {o : Options} {l : Listing} {s t : Assembler}

theorem contribution_unlimited (o : Options) : o.unlimited.contribution = o.contribution := by
  funext e
  cases e <;> rfl

/-- A listing is assembled just if each of its entries adds bytes and the sums are within the
limits. -/
theorem assemble_done_iff : (o.assemble l).failure = none ↔
    ∃ chunks, l.entries.mapM o.contribution = .ok chunks ∧
      l.entries.length ≤ o.limits.statements ∧
      (l.entries.filterMap SectionEntry.label?).length ≤ o.limits.labels ∧
      chunks.flatten.length ≤ o.limits.outputBytes := by
  have hroom : ∀ (es : List SectionEntry) (size : Nat),
      ({ options := o } : Assembler).HasRoom es size ↔ es.length ≤ o.limits.statements ∧
        (es.filterMap SectionEntry.label?).length ≤ o.limits.labels ∧
        size ≤ o.limits.outputBytes := by
    intro es size
    constructor
    · rintro ⟨hstatements, hlabels, houtput⟩
      exact ⟨by simpa using hstatements, by simpa using hlabels, by simpa using houtput⟩
    · rintro ⟨hstatements, hlabels, houtput⟩
      exact ⟨by simpa using hstatements, by simpa using hlabels, by simpa using houtput⟩
  have hempty := (hroom [] 0).mpr ⟨Nat.zero_le _, Nat.zero_le _, Nat.zero_le _⟩
  show (({ options := o } : Assembler).run l.actions).failure = none ↔ _
  rw [Assembler.run_done_iff hempty, Listing.filterMap_actions]
  simp only [hroom]

/-- Where a listing is assembled both with and without limits, what comes of it is the same. -/
theorem assemble_unlimited_eq (hs : o.assemble l = ⟨s, none⟩)
    (ht : o.unlimited.assemble l = ⟨t, none⟩) :
    s.code = t.code ∧ s.labels = t.labels ∧ s.symbols = t.symbols := by
  obtain ⟨chunks, hchunks⟩ := Assembler.appends_of_run hs
  obtain ⟨chunks', hchunks'⟩ := Assembler.appends_of_run ht
  have hsame : (l.actions.filterMap Action.entry?).mapM o.unlimited.contribution = .ok chunks' :=
    hchunks'.contributions
  rw [contribution_unlimited] at hsame
  obtain rfl := Except.ok.inj (hchunks.contributions.symm.trans hsame)
  refine ⟨?_, ?_, ?_⟩
  · exact Array.toList_inj.mp (hchunks.code.trans hchunks'.code.symm)
  · exact Array.toList_inj.mp (hchunks.labels.trans hchunks'.labels.symm)
  · exact (Assembler.symbols_of_run hs).trans (Assembler.symbols_of_run ht).symm

/-- The code of a listing is what its entries add. -/
theorem size_of_assemble {chunks : List Bytes} (hs : o.assemble l = ⟨s, none⟩)
    (hchunks : l.entries.mapM o.contribution = .ok chunks) :
    s.code.size = chunks.flatten.length := by
  obtain ⟨chunks', hchunks'⟩ := Assembler.appends_of_run hs
  have hcontributions := hchunks'.contributions
  rw [Listing.filterMap_actions] at hcontributions
  obtain rfl := Except.ok.inj (hchunks.symm.trans hcontributions)
  rw [← Array.length_toList, hchunks'.code]
  rfl

/-- A listing is assembled under limits just if it is assembled without, and its entries, its labels
and its code are no more than the limits allow.  What comes of it is then the same. -/
theorem assemble_eq_unlimited (ho : o.limits.Fits) (l : Listing) :
    ((o.assemble l).failure = none ↔
      (o.unlimited.assemble l).failure = none ∧
      l.entries.length ≤ o.limits.statements ∧
      (l.entries.filterMap SectionEntry.label?).length ≤ o.limits.labels ∧
      (o.unlimited.assemble l).state.code.size ≤ o.limits.outputBytes) ∧
    ((o.assemble l).failure = none →
      (o.assemble l).state.code = (o.unlimited.assemble l).state.code ∧
      (o.assemble l).state.labels = (o.unlimited.assemble l).state.labels ∧
      (o.assemble l).state.symbols = (o.unlimited.assemble l).state.symbols) := by
  have hdone : ∀ {o : Options}, (o.assemble l).failure = none →
      o.assemble l = ⟨(o.assemble l).state, none⟩ := fun h => congrArg (Outcome.mk _) h
  have hlargest : ∀ {n m : Nat}, n ≤ m → m < wordCount 64 → n ≤ wordCount 64 - 1 := by
    intro n m hle hlt
    omega
  have hunlimited : (o.assemble l).failure = none → (o.unlimited.assemble l).failure = none := by
    rw [assemble_done_iff, assemble_done_iff, contribution_unlimited]
    rintro ⟨chunks, hchunks, hstatements, hlabels, houtput⟩
    exact ⟨chunks, hchunks, hlargest hstatements ho.statements, hlargest hlabels ho.labels,
      hlargest houtput ho.outputBytes⟩
  have hsame : (o.assemble l).failure = none →
      (o.assemble l).state.code = (o.unlimited.assemble l).state.code ∧
      (o.assemble l).state.labels = (o.unlimited.assemble l).state.labels ∧
      (o.assemble l).state.symbols = (o.unlimited.assemble l).state.symbols :=
    fun h => assemble_unlimited_eq (hdone h) (hdone (hunlimited h))
  refine ⟨⟨?_, ?_⟩, hsame⟩
  · intro h
    obtain ⟨chunks, hchunks, hstatements, hlabels, houtput⟩ := assemble_done_iff.mp h
    refine ⟨hunlimited h, hstatements, hlabels, ?_⟩
    rw [← (hsame h).1, size_of_assemble (hdone h) hchunks]
    exact houtput
  · rintro ⟨h, hstatements, hlabels, houtput⟩
    obtain ⟨chunks, hchunks, _⟩ := assemble_done_iff.mp h
    rw [size_of_assemble (hdone h) hchunks] at houtput
    rw [contribution_unlimited] at hchunks
    exact assemble_done_iff.mpr ⟨chunks, hchunks, hstatements, hlabels, houtput⟩

/-- Limits that the listing below just keeps to. -/
def tightOptions : Options where
  imm16 := .twoBytes
  emitData := true
  limits := { statements := 4, labels := 1, outputBytes := 6, sourceBytes := 0 }

/-- Four entries, one of them empty and one a label, that come to six bytes. -/
def tightListing : Listing := ⟨[
  .importSymbol "f",
  .sectionBlock ".text" [.instruction ⟨64, "push", [.immediate (.imm16 1000)]⟩, .data []],
  .sectionBlock ".data" [.label "f", .data [1, 2]]]⟩

theorem assemble_eq_unlimited_tightListing :
    tightOptions.limits.Fits ∧ (tightOptions.assemble tightListing).failure = none ∧
    (tightOptions.unlimited.assemble tightListing).state.code = #[0x66, 0x68, 0xE8, 3, 1, 2] ∧
    (tightOptions.assemble tightListing).state.code = #[0x66, 0x68, 0xE8, 3, 1, 2] ∧
    (tightOptions.assemble tightListing).state.labels =
      (tightOptions.unlimited.assemble tightListing).state.labels := by
  have hfits : tightOptions.limits.Fits := ⟨by decide, by decide, by decide, by decide⟩
  have hfree : (tightOptions.unlimited.assemble tightListing).failure = none ∧
      (tightOptions.unlimited.assemble tightListing).state.code =
        #[0x66, 0x68, 0xE8, 3, 1, 2] := by
    decide +kernel
  obtain ⟨hiff, hsame⟩ := assemble_eq_unlimited hfits tightListing
  have hdone := hiff.mpr ⟨hfree.1, by decide, by decide, by rw [hfree.2]; decide⟩
  exact ⟨hfits, hdone, hfree.2, (hsame hdone).1.trans hfree.2, (hsame hdone).2.1⟩

end Options

end X64Asm
