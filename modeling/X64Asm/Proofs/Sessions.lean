import X64Asm.Proofs.Limits
import X64Asm.Proofs.SymbolOrder

/-! # Sessions

An assembler is used by calls: its options are set, texts and parts of programs are assembled.  A call
that fails may be followed by others, so a session reaches states that no program without faults
does.  `Assembler.history` lists what the calls of a session have done: the actions of each, up to the
first that failed.

Where the limits are set at the start and left alone, all these states are coherent
(`Assembler.coherent_session`): the output is within the limits, the labels lie in order and within
the code, and the symbols are those of the labels and declarations in the history.  One action keeps
this up (`Tracks.perform`, `Tracks.refused`), hence a run does (`Tracks.run`), hence a call. -/

namespace X64Asm

/-- A call on an assembler. -/
inductive Call where
  | setOptions (options : Options)
  | setLimits (limits : Limits)
  | setImm16 (layout : Imm16Layout)
  | setEmitData (enabled : Bool)
  | emit (source : String)
  | assemble (node : Node)
  deriving DecidableEq, Repr

namespace Call

/-- Whether the call leaves the limits alone. -/
def keepsLimits : Call → Bool
  | setOptions _ | setLimits _ => false
  | setImm16 _ | setEmitData _ | emit _ | assemble _ => true

/-- The actions that the call sets out to perform; none if it fails before. -/
def actions (s : Assembler) : Call → List Action
  | emit source => (s.sourceActions source).toOption.getD []
  | assemble node => node.actions.toOption.getD []
  | setOptions _ | setLimits _ | setImm16 _ | setEmitData _ => []

end Call

namespace Assembler

/-- What comes of a call. -/
def call (s : Assembler) : Call → Outcome
  | .setOptions options => done { s with options }
  | .setLimits limits => done { s with options := { s.options with limits } }
  | .setImm16 imm16 => done { s with options := { s.options with imm16 } }
  | .setEmitData emitData => done { s with options := { s.options with emitData } }
  | .emit source => s.emit source
  | .assemble node => s.assemble node

/-- The state after calls, whether or not they fail. -/
def after (s : Assembler) : List Call → Assembler
  | [] => s
  | c :: calls => (s.call c).state.after calls

/-- The actions of a run that are performed: those ahead of the first that fails. -/
def performed (s : Assembler) : List Action → List Action
  | [] => []
  | action :: actions =>
    match s.perform action with
    | ⟨after, none⟩ => action :: after.performed actions
    | _ => []

/-- The actions that are performed in a session. -/
def history (s : Assembler) : List Call → List Action
  | [] => []
  | c :: calls => s.performed (c.actions s) ++ (s.call c).state.history calls

/-! ### Entries that fail -/

/-- What comes of an entry that fails.  It is counted, and so is a label that passes the limit. -/
inductive Refused (s : Assembler) : SectionEntry → Outcome → Prop
  | statements (e : SectionEntry) :
      Refused s e (s.counted.report (.exhausted .statements s.options.limits.statements))
  | encoding {i : Instruction} {f : Failure} (encode : i.encode s.options.imm16 = .error f) :
      Refused s (.instruction i) ⟨s.counted, some f⟩
  | output (e : SectionEntry) : Refused s e (s.counted.report s.outputExhausted)
  | labels (name : String) :
      Refused s (.label name) (report { s.counted with labelCount := s.labelCount + 1 }
        (.exhausted .labels s.options.limits.labels))

variable {s t : Assembler} {e : SectionEntry} {f : Failure}

theorem output_eq_of_failed {bytes : Bytes} (h : s.output bytes = ⟨t, some f⟩) :
    s.output bytes = s.report s.outputExhausted := by
  unfold output at h ⊢
  split at h
  · next hfull => rw [if_pos hfull]
  · cases h

theorem refused_addEntry (h : s.addEntry e = ⟨t, some f⟩) : s.Refused e ⟨t, some f⟩ := by
  by_cases hlimit : s.options.limits.statements < s.counted.statementCount
  · rw [← h, addEntry_full hlimit]
    exact .statements e
  · have hadd := addEntry_room hlimit e
    rw [h] at hadd
    rw [hadd]
    cases e with
    | instruction i =>
        have hinstruction : s.counted.addInstruction i = ⟨t, some f⟩ := hadd.symm
        show s.Refused _ (s.counted.addInstruction i)
        unfold addInstruction at hinstruction ⊢
        cases hcode : i.encode s.options.imm16 with
        | error f =>
            rw [show s.counted.options.imm16 = s.options.imm16 from rfl, hcode]
            exact .encoding hcode
        | ok buf =>
            rw [show s.counted.options.imm16 = s.options.imm16 from rfl, hcode] at hinstruction ⊢
            show s.Refused _ (s.counted.output buf.toList)
            rw [output_eq_of_failed hinstruction]
            exact .output _
    | data bytes =>
        have hdata : s.counted.addData bytes = ⟨t, some f⟩ := hadd.symm
        show s.Refused _ (s.counted.addData bytes)
        unfold addData at hdata ⊢
        split at hdata
        · next hemit =>
          rw [if_pos hemit, output_eq_of_failed hdata]
          exact .output _
        · cases hdata
    | label name =>
        have hlabel : s.counted.addLabel name = ⟨t, some f⟩ := hadd.symm
        show s.Refused _ (s.counted.addLabel name)
        by_cases hlabels : s.counted.options.limits.labels < s.counted.labelCount + 1
        · rw [addLabel_full hlabels]
          exact .labels name
        · rw [addLabel_room hlabels] at hlabel
          cases hlabel

/-- A failed entry leaves all but the counts alone, and these do not shrink. -/
theorem Refused.state {o : Outcome} (h : s.Refused e o) :
    ∃ m n, s.statementCount ≤ m ∧ s.labelCount ≤ n ∧
      o.state = { s with statementCount := m, labelCount := n } := by
  cases h with
  | statements => exact ⟨_, _, Nat.le_succ _, Nat.le_refl _, rfl⟩
  | encoding => exact ⟨_, _, Nat.le_succ _, Nat.le_refl _, rfl⟩
  | output => exact ⟨_, _, Nat.le_succ _, Nat.le_refl _, rfl⟩
  | labels => exact ⟨_, _, Nat.le_succ _, Nat.le_succ _, rfl⟩

/-! ### Entries that are assembled -/

theorem size_of_output {bytes : Bytes} (h : s.output bytes = ⟨t, none⟩) :
    t.code.size ≤ t.options.limits.outputBytes := by
  have hroom := output_done_iff.mp (congrArg Outcome.failure h)
  rcases output_cases s bytes with hdone | ⟨f, hfailed⟩
  · rw [hdone] at h
    cases h
    rw [size_append]
    exact hroom
  · rw [hfailed] at h
    cases h

/-- An entry that is assembled has kept each count that it raised within the limit. -/
theorem within_of_addEntry (h : s.addEntry e = ⟨t, none⟩) :
    s.statementCount + 1 ≤ s.options.limits.statements ∧
    s.labelCount + e.label?.toList.length ≤ max s.labelCount s.options.limits.labels ∧
    t.code.size ≤ max s.code.size s.options.limits.outputBytes := by
  by_cases hlimit : s.options.limits.statements < s.counted.statementCount
  · rw [addEntry_full hlimit] at h
    cases h
  · have hoptions := (assembled_of_addEntry h).counts.1
    rw [addEntry_room hlimit] at h
    refine ⟨Nat.not_lt.mp hlimit, ?_⟩
    cases e with
    | instruction i =>
        refine ⟨Nat.le_max_left _ _, Nat.le_trans ?_ (Nat.le_max_right _ _)⟩
        have hinstruction : s.counted.addInstruction i = ⟨t, none⟩ := h
        unfold addInstruction at hinstruction
        split at hinstruction
        · rw [← hoptions]
          exact size_of_output hinstruction
        · cases hinstruction
    | data bytes =>
        refine ⟨Nat.le_max_left _ _, ?_⟩
        have hdata : s.counted.addData bytes = ⟨t, none⟩ := h
        unfold addData at hdata
        split at hdata
        · rw [← hoptions]
          exact Nat.le_trans (size_of_output hdata) (Nat.le_max_right _ _)
        · cases hdata
          exact Nat.le_max_left _ _
    | label name =>
        have hlabel : s.counted.addLabel name = ⟨t, none⟩ := h
        have hroom := (addLabel_done_iff name).mp (congrArg Outcome.failure hlabel)
        refine ⟨Nat.le_trans hroom (Nat.le_max_right _ _), ?_⟩
        rw [addLabel_room (Nat.not_lt.mpr hroom)] at hlabel
        cases hlabel
        exact Nat.le_max_left _ _

/-! ### What a state keeps of its history -/

/-- The counts cover the history, and what the history has put out is within the limits. -/
structure Counts (s : Assembler) (history : List Action) : Prop where
  statements : (history.filterMap Action.entry?).length ≤
    min s.statementCount s.options.limits.statements
  labels : (history.filterMap Action.label?).length ≤ min s.labelCount s.options.limits.labels
  output : s.code.size ≤ s.options.limits.outputBytes

/-- The labels are those of the history, in order and within the code. -/
structure Labelled (s : Assembler) (history : List Action) : Prop where
  names : s.labels.toList.map (·.1) = history.filterMap Action.label?
  ascending : s.labels.toList.Pairwise fun first second => first.2 ≤ second.2
  inside : ∀ label ∈ s.labels.toList, label.2 ≤ s.code.size

/-- The symbols are those of the history, and one that is not declared is a label. -/
structure Knows (s : Assembler) (history : List Action) : Prop where
  ranks : s.symbols.Ranks (history.filterMap Action.name?).eraseDups
  normal : ∀ name, s.symbols.kind? name = some .normal → name ∈ history.filterMap Action.label?

/-- The state is one that the history leads to, with failures in between. -/
structure Tracks (s : Assembler) (history : List Action) : Prop where
  counts : s.Counts history
  labelled : s.Labelled history
  knows : s.Knows history

variable {history : List Action} {action : Action}

theorem filterMap_concat {α : Type} (f : Action → Option α) (history : List Action)
    (action : Action) :
    (history ++ [action]).filterMap f = history.filterMap f ++ (f action).toList := by
  rw [List.filterMap_append]
  cases hf : f action <;> simp [hf]

theorem Counts.perform (h : s.Counts history) (hdone : s.perform action = ⟨t, none⟩) :
    t.Counts (history ++ [action]) := by
  cases action with
  | enter name count =>
      cases hdone
      refine ⟨?_, ?_, h.output⟩
      · rw [filterMap_concat]
        simpa [Action.entry?] using h.statements
      · rw [filterMap_concat]
        simpa using h.labels
  | declare name kind =>
      cases hdone
      refine ⟨?_, ?_, h.output⟩
      · rw [filterMap_concat]
        simpa [Action.entry?] using h.statements
      · rw [filterMap_concat]
        simpa using h.labels
  | entry e =>
      obtain ⟨hstatements, hlabels, houtput⟩ := within_of_addEntry hdone
      obtain ⟨hoptions, hcount, hlabelCount⟩ := (assembled_of_addEntry hdone).counts
      have hlength : (Action.entry e).label?.toList.length = e.label?.toList.length := by simp
      have hbefore := h.statements
      have hbeforeLabels := h.labels
      have hbeforeOutput := h.output
      refine ⟨?_, ?_, ?_⟩
      · rw [filterMap_concat, List.length_append, hoptions, hcount]
        show _ + 1 ≤ _
        omega
      · rw [filterMap_concat, List.length_append, hlength, hoptions, hlabelCount]
        omega
      · rw [hoptions]
        omega

theorem Labelled.perform (h : s.Labelled history) (hdone : s.perform action = ⟨t, none⟩) :
    t.Labelled (history ++ [action]) := by
  cases action with
  | enter name count =>
      cases hdone
      refine ⟨?_, h.ascending, h.inside⟩
      rw [filterMap_concat, h.names]
      exact (List.append_nil _).symm
  | declare name kind =>
      cases hdone
      refine ⟨?_, h.ascending, h.inside⟩
      rw [filterMap_concat, ← h.names]
      exact (List.append_nil _).symm
  | entry e =>
      cases assembled_of_addEntry hdone with
      | @code _ bytes _ noLabel =>
          refine ⟨?_, h.ascending, ?_⟩
          · rw [filterMap_concat, Action.label?_entry, SectionEntry.label?_eq_none noLabel]
            exact h.names.trans (List.append_nil _).symm
          · intro label hlabel
            have hgrown : s.code.size ≤ (s.code ++ bytes).size := by
              rw [size_append]
              exact Nat.le_add_right _ _
            exact Nat.le_trans (h.inside label hlabel) hgrown
      | label name =>
          refine ⟨?_, ?_, ?_⟩
          · rw [filterMap_concat, ← h.names, Array.toList_push, List.map_append]
            rfl
          · rw [Array.toList_push, List.pairwise_append]
            refine ⟨h.ascending, List.pairwise_singleton _ _, ?_⟩
            intro first hfirst second hsecond
            rw [List.mem_singleton.mp hsecond]
            exact h.inside first hfirst
          · intro label hlabel
            rw [Array.toList_push, List.mem_append, List.mem_singleton] at hlabel
            rcases hlabel with hlabel | rfl
            · exact h.inside label hlabel
            · exact Nat.le_refl _

theorem Knows.perform (h : s.Knows history) (hproper : ∀ name, action ≠ .declare name .normal)
    (hdone : s.perform action = ⟨t, none⟩) : t.Knows (history ++ [action]) where
  ranks := by
    rw [filterMap_concat]
    exact ranks_perform h.ranks hdone
  normal := by
    intro name hname
    rw [filterMap_concat, List.mem_append]
    rw [kind?_perform hdone, Option.or_assoc, Option.or_eq_some_iff, Option.or_eq_some_iff] at hname
    rcases hname with hdeclared | ⟨_, hbefore | ⟨_, hlabel⟩⟩
    · cases action with
      | enter name count => cases hdeclared
      | entry e =>
          rw [Action.declaration?_entry] at hdeclared
          cases hdeclared
      | declare other kind =>
          rw [Action.declaration?_declare, Option.toList_some, lastKind?_singleton] at hdeclared
          split at hdeclared
          · cases hdeclared
            exact absurd rfl (hproper other)
          · cases hdeclared
    · exact .inl (h.normal name hbefore)
    · unfold labelKind? at hlabel
      split at hlabel
      · next hmem => exact .inr hmem
      · cases hlabel

theorem Tracks.perform (h : s.Tracks history) (hproper : ∀ name, action ≠ .declare name .normal)
    (hdone : s.perform action = ⟨t, none⟩) : t.Tracks (history ++ [action]) :=
  ⟨h.counts.perform hdone, h.labelled.perform hdone, h.knows.perform hproper hdone⟩

/-- An action that fails adds nothing to the history. -/
theorem Tracks.refused (h : s.Tracks history) (hfailed : s.perform action = ⟨t, some f⟩) :
    t.Tracks history := by
  cases action with
  | enter name count => cases hfailed
  | declare name kind => cases hfailed
  | entry e =>
      obtain ⟨m, n, hm, hn, hstate⟩ := (refused_addEntry hfailed).state
      obtain rfl : t = { s with statementCount := m, labelCount := n } := hstate
      obtain ⟨hstatements, hlabels, houtput⟩ := h.counts
      refine ⟨⟨?_, ?_, houtput⟩, ⟨h.labelled.names, h.labelled.ascending, h.labelled.inside⟩,
        ⟨h.knows.ranks, h.knows.normal⟩⟩
      · show _ ≤ min m s.options.limits.statements
        omega
      · show _ ≤ min n s.options.limits.labels
        omega

theorem Tracks.run {actions : List Action} (h : s.Tracks history)
    (hproper : ∀ name, .declare name .normal ∉ actions) :
    (s.run actions).state.Tracks (history ++ s.performed actions) := by
  induction actions generalizing s history with
  | nil =>
      rw [performed, List.append_nil]
      exact h
  | cons action actions ih =>
      rw [Assembler.run, performed]
      cases hperform : s.perform action with
      | mk after failure =>
          cases failure with
          | some f =>
              rw [List.append_nil]
              exact h.refused hperform
          | none =>
              have hfirst : ∀ name, action ≠ .declare name .normal := by
                rintro name rfl
                exact hproper name List.mem_cons_self
              have hrest := ih (h.perform hfirst hperform)
                fun name hmem => hproper name (List.mem_cons_of_mem _ hmem)
              rw [List.append_assoc, List.singleton_append] at hrest
              exact hrest

/-! ### Calls -/

end Assembler

/-- Programs declare symbols to be imported or exported. -/
theorem Directive.normal_notMem_actions (d : Directive) (name : String) :
    .declare name .normal ∉ d.actions := by
  cases d with
  | importSymbol other => simp [actions]
  | exportSymbol other => simp [actions]
  | sectionBlock other entries => simp [actions]

theorem Listing.normal_notMem_actions (l : Listing) (name : String) :
    .declare name .normal ∉ l.actions := by
  intro hmem
  obtain ⟨d, _, hd⟩ := List.mem_flatMap.mp hmem
  exact d.normal_notMem_actions name hd

theorem Node.normal_notMem_actions {node : Node} {actions : List Action}
    (h : node.actions = .ok actions) (name : String) : .declare name .normal ∉ actions := by
  cases node with
  | listing l =>
      cases h
      exact l.normal_notMem_actions name
  | directive d =>
      cases h
      exact d.normal_notMem_actions name
  | entry e =>
      cases h
      simp
  | operand op => cases h

namespace Assembler

variable {s : Assembler}

section

variable {history : List Action}

theorem Tracks.call (h : s.Tracks history) {c : Call} (hkeeps : c.keepsLimits = true) :
    (s.call c).state.Tracks (history ++ s.performed (c.actions s)) := by
  have hidle : history ++ s.performed [] = history := List.append_nil _
  cases c with
  | setOptions options => cases hkeeps
  | setLimits limits => cases hkeeps
  | setImm16 layout =>
      rw [Call.actions, hidle]
      exact ⟨⟨h.counts.statements, h.counts.labels, h.counts.output⟩,
        ⟨h.labelled.names, h.labelled.ascending, h.labelled.inside⟩, ⟨h.knows.ranks, h.knows.normal⟩⟩
  | setEmitData enabled =>
      rw [Call.actions, hidle]
      exact ⟨⟨h.counts.statements, h.counts.labels, h.counts.output⟩,
        ⟨h.labelled.names, h.labelled.ascending, h.labelled.inside⟩, ⟨h.knows.ranks, h.knows.normal⟩⟩
  | emit source =>
      rw [Call.actions, Assembler.call, Assembler.emit]
      cases hactions : s.sourceActions source with
      | error d => exact hidle.symm ▸ h
      | ok actions =>
          refine h.run fun name => ?_
          unfold sourceActions at hactions
          split at hactions
          · cases hactions
          · obtain ⟨l, _, rfl⟩ := map_eq_ok.mp hactions
            exact l.normal_notMem_actions name
  | assemble node =>
      rw [Call.actions, Assembler.call, Assembler.assemble]
      cases hactions : node.actions with
      | error d => exact hidle.symm ▸ h
      | ok actions => exact h.run (Node.normal_notMem_actions hactions)

/-! ### Sessions -/

theorem options_perform (s : Assembler) (action : Action) :
    (s.perform action).state.options = s.options := by
  cases action with
  | enter name count => rfl
  | declare name kind => rfl
  | entry e =>
      have hassembled := assembled_addEntry s e
      show (s.addEntry e).state.options = s.options
      generalize s.addEntry e = o at hassembled ⊢
      cases hassembled <;> rfl

theorem options_state_run (s : Assembler) (actions : List Action) :
    (s.run actions).state.options = s.options := by
  induction actions generalizing s with
  | nil => rfl
  | cons action actions ih =>
      have hoptions := options_perform s action
      rw [run]
      cases hperform : s.perform action with
      | mk after failure =>
          rw [hperform] at hoptions
          cases failure with
          | some f => exact hoptions
          | none => exact (ih after).trans hoptions

theorem limits_call (s : Assembler) {c : Call} (hkeeps : c.keepsLimits = true) :
    (s.call c).state.options.limits = s.options.limits := by
  cases c with
  | setOptions options => cases hkeeps
  | setLimits limits => cases hkeeps
  | setImm16 layout => rfl
  | setEmitData enabled => rfl
  | emit source =>
      rw [Assembler.call, Assembler.emit]
      cases s.sourceActions source with
      | error d => rfl
      | ok actions => exact congrArg Options.limits (options_state_run s actions)
  | assemble node =>
      rw [Assembler.call, Assembler.assemble]
      cases node.actions with
      | error d => rfl
      | ok actions => exact congrArg Options.limits (options_state_run s actions)

theorem Tracks.session {calls : List Call} (h : s.Tracks history)
    (hkeeps : ∀ c ∈ calls, c.keepsLimits = true) :
    (s.after calls).Tracks (history ++ s.history calls) ∧
      (s.after calls).options.limits = s.options.limits := by
  induction calls generalizing s history with
  | nil => exact ⟨(List.append_nil history).symm ▸ h, rfl⟩
  | cons c calls ih =>
      have hfirst := hkeeps c List.mem_cons_self
      obtain ⟨hrest, hlimits⟩ :=
        ih (h.call hfirst) fun c hc => hkeeps c (List.mem_cons_of_mem _ hc)
      rw [List.append_assoc] at hrest
      exact ⟨hrest, hlimits.trans (limits_call s hfirst)⟩

theorem Tracks.fresh (options : Options) : Tracks { options } [] where
  counts := ⟨Nat.zero_le _, Nat.zero_le _, Nat.zero_le _⟩
  labelled := ⟨rfl, List.Pairwise.nil, fun _ hlabel => absurd hlabel List.not_mem_nil⟩
  knows := by
    refine ⟨SymbolTable.Ranks.empty, ?_⟩
    intro name hname
    have hnone : (({} : SymbolTable).get? name) = none :=
      SymbolTable.Ranks.empty.unknown name List.not_mem_nil
    rw [SymbolTable.kind?, hnone] at hname
    cases hname

/-- The state is within the limits, and its labels and symbols are those of the history. -/
structure Coherent (s : Assembler) (limits : Limits) (history : List Action) : Prop where
  output : s.code.size ≤ limits.outputBytes
  labels : s.labels.size ≤ limits.labels
  statements : (history.filterMap Action.entry?).length ≤ limits.statements
  ascending : s.labels.toList.Pairwise fun first second => first.2 ≤ second.2
  inside : ∀ label ∈ s.labels.toList, label.2 ≤ s.code.size
  labelled : s.labels.toList.map (·.1) = history.filterMap Action.label?
  labelKnown : ∀ label ∈ s.labels.toList, ∃ symbol ∈ s.symbols.toList, symbol.name = label.1
  declaredKnown : ∀ declared ∈ history.filterMap Action.declaration?,
    ∃ symbol ∈ s.symbols.toList, symbol.name = declared.1
  normal : ∀ symbol ∈ s.symbols.toList, symbol.kind = .normal →
    ∃ label ∈ s.labels.toList, label.1 = symbol.name
  finish : s.finish = .ok ⟨s.code.toList, s.labels.toList, s.symbols⟩

theorem Knows.exists_symbol (h : s.Knows history) {name : String}
    (hname : name ∈ history.filterMap Action.name?) :
    ∃ symbol ∈ s.symbols.toList, symbol.name = name := by
  obtain ⟨i, kind, _, hget⟩ := h.ranks.exists_of_mem (List.mem_eraseDups.mpr hname)
  exact ⟨⟨name, i, kind⟩, h.ranks.mem_toList_iff.mpr hget, rfl⟩

theorem Tracks.coherent (h : s.Tracks history) : s.Coherent s.options.limits history where
  output := h.counts.output
  labels := by
    have hlabels := h.counts.labels
    rw [← h.labelled.names, List.length_map, Array.length_toList] at hlabels
    exact Nat.le_trans hlabels (Nat.min_le_right _ _)
  statements := Nat.le_trans h.counts.statements (Nat.min_le_right _ _)
  ascending := h.labelled.ascending
  inside := h.labelled.inside
  labelled := h.labelled.names
  labelKnown := by
    intro label hlabel
    apply h.knows.exists_symbol
    have hmem : label.1 ∈ history.filterMap Action.label? := by
      rw [← h.labelled.names]
      exact List.mem_map_of_mem hlabel
    obtain ⟨action, haction, hname⟩ := List.mem_filterMap.mp hmem
    refine List.mem_filterMap.mpr ⟨action, haction, ?_⟩
    cases action with
    | enter name count => cases hname
    | declare name kind => cases hname
    | entry e =>
        cases e with
        | instruction i => cases hname
        | data bytes => cases hname
        | label name => exact hname
  declaredKnown := by
    intro declared hdeclared
    apply h.knows.exists_symbol
    obtain ⟨action, haction, hname⟩ := List.mem_filterMap.mp hdeclared
    refine List.mem_filterMap.mpr ⟨action, haction, ?_⟩
    cases action with
    | enter name count => cases hname
    | entry e =>
        rw [Action.declaration?_entry] at hname
        cases hname
    | declare name kind =>
        cases hname
        rfl
  normal := by
    intro symbol hsymbol hkind
    have hmem : symbol.name ∈ history.filterMap Action.label? := by
      apply h.knows.normal
      rw [SymbolTable.kind?, h.knows.ranks.mem_toList_iff.mp hsymbol, Option.map_some, hkind]
    rw [← h.labelled.names] at hmem
    exact List.mem_map.mp hmem
  finish := by
    have hroom : ¬ s.outputFull 0 = true := by
      rw [outputFull, decide_eq_true_eq, Nat.not_lt]
      exact h.counts.output
    exact if_neg hroom

end

/-- Calls that leave the limits alone, failed ones among them, lead from the start to coherent
states. -/
theorem coherent_session (options : Options) {calls : List Call}
    (hkeeps : ∀ c ∈ calls, c.keepsLimits = true) :
    (after { options } calls).Coherent options.limits (history { options } calls) := by
  obtain ⟨htracks, hlimits⟩ := (Tracks.fresh options).session hkeeps
  have hcoherent := htracks.coherent
  rw [hlimits] at hcoherent
  exact hcoherent

/-- Limits that the session below passes one after the other. -/
def strictOptions : Options :=
  { limits := { statements := 6, labels := 1, outputBytes := 3, sourceBytes := 40 } }

/-- An instruction without an encoding, a text that breaks off at its second label, data of which the
last byte finds no room, and a text with one statement too many. -/
def troubledCalls : List Call := [
  .assemble (.entry (.instruction ⟨64, "hlt", []⟩)),
  .emit "extern f\na: push rax\nb: push rax",
  .setEmitData true,
  .assemble (.listing ⟨[.sectionBlock ".data" [.data [1, 2], .data [3]]]⟩),
  .emit "global f\nf:"]

theorem coherent_session_troubledCalls :
    (∀ c ∈ troubledCalls, c.keepsLimits = true) ∧
    (after { options := strictOptions } troubledCalls).Coherent strictOptions.limits
      (history { options := strictOptions } troubledCalls) ∧
    (after { options := strictOptions } troubledCalls).labels = #[("a", 0)] ∧
    (after { options := strictOptions } troubledCalls).code = #[0x50, 1, 2] ∧
    (after { options := strictOptions } troubledCalls).symbols.kind? "f" = some .exported ∧
    (after { options := strictOptions } troubledCalls).symbols.kind? "a" = some .normal := by
  have hkeeps : ∀ c ∈ troubledCalls, c.keepsLimits = true := by decide
  have hstate : (after { options := strictOptions } troubledCalls).labels = #[("a", 0)] ∧
      (after { options := strictOptions } troubledCalls).code = #[0x50, 1, 2] ∧
      (after { options := strictOptions } troubledCalls).symbols.kind? "f" = some .exported ∧
      (after { options := strictOptions } troubledCalls).symbols.kind? "a" = some .normal := by
    decide +kernel
  exact ⟨hkeeps, coherent_session strictOptions hkeeps, hstate⟩

end Assembler

end X64Asm
