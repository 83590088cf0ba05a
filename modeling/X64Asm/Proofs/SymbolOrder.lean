import X64Asm.Proofs.Stretches
import X64Asm.Proofs.SymbolKinds

/-! # Ordinals of symbols

The symbols of a source text are ranked in the order in which the names arrive at the table: the
declarations of a stretch of a section first, then its labels (`emit_symbols`).  The ordinals follow
the text just if its stretches are orderly; a label ahead of the declaration of another name, both
new, breaks the order (`emit_label_before_global`). -/

namespace X64Asm

/-! ### Names in a run -/

namespace Assembler

variable {s t : Assembler} {names : List String}

theorem ranks_perform {action : Action} (hs : s.symbols.Ranks names.eraseDups)
    (h : s.perform action = ⟨t, none⟩) :
    t.symbols.Ranks (names ++ action.name?.toList).eraseDups := by
  cases action with
  | enter name count =>
      cases h
      rw [Action.name?_enter, Option.toList_none, List.append_nil]
      exact hs
  | declare name kind =>
      cases h
      exact hs.declare name kind
  | entry e =>
      have hassembled := assembled_addEntry s e
      rw [show s.addEntry e = ⟨t, none⟩ from h] at hassembled
      cases hassembled with
      | code _ noLabel =>
          rw [Action.name?_entry, SectionEntry.label?_eq_none noLabel, Option.toList_none,
            List.append_nil]
          exact hs
      | label name => exact hs.intern name

/-- A run ranks the names behind those that were known. -/
theorem ranks_run {actions : List Action} (hs : s.symbols.Ranks names.eraseDups)
    (h : s.run actions = ⟨t, none⟩) :
    t.symbols.Ranks (names ++ actions.filterMap Action.name?).eraseDups := by
  induction actions generalizing s names with
  | nil =>
      cases h
      rw [List.filterMap_nil, List.append_nil]
      exact hs
  | cons action actions ih =>
      obtain ⟨after, hafter, h⟩ := run_cons_iff.mp h
      have hrest := ih (ranks_perform hs hafter) h
      have hnames : (action :: actions).filterMap Action.name? =
          action.name?.toList ++ actions.filterMap Action.name? := by
        cases hname : action.name? <;> simp [hname]
      rw [hnames, ← List.append_assoc]
      exact hrest

end Assembler

/-! ### Names in a listing -/

/-- The names in the order in which a sequence of directives makes them known. -/
def Directive.names (directives : List Directive) : List String :=
  (directives.flatMap Directive.actions).filterMap Action.name?

theorem Directive.names_append (ds ds' : List Directive) :
    names (ds ++ ds') = names ds ++ names ds' := by
  simp [names]

theorem Directive.names_sectionBlock (name : String) (entries : List SectionEntry) :
    names [.sectionBlock name entries] = entries.filterMap SectionEntry.label? := by
  have hentries : (entries.map Action.entry).filterMap Action.name? =
      entries.filterMap SectionEntry.label? := by
    simp [List.filterMap_map]
  rw [names, List.flatMap_singleton]
  exact hentries

/-- Declarations make their names known. -/
theorem Directive.names_map {f : String → Directive} (hf : ∀ name, names [f name] = [name])
    (declared : List String) : names (declared.map f) = declared := by
  induction declared with
  | nil => rfl
  | cons name declared ih =>
      rw [List.map_cons, ← List.singleton_append, names_append, hf, ih]
      rfl

namespace Listing.Draft

/-- The labels of the open section. -/
def waiting (d : Draft) : List String :=
  match d.current with
  | some (_, entries) => entries.toList.filterMap SectionEntry.label?
  | none => []

/-- The open section makes its labels known when it is left. -/
theorem names_leave (d : Draft) :
    Directive.names d.leave.placed.toList = Directive.names d.placed.toList ++ d.waiting := by
  unfold leave waiting
  cases d.current with
  | none => exact (List.append_nil _).symm
  | some opened =>
      obtain ⟨name, entries⟩ := opened
      by_cases hempty : (name.isEmpty && entries.isEmpty) = true
      · have hentries : entries = #[] := by
          rw [Bool.and_eq_true, Array.isEmpty_iff] at hempty
          exact hempty.2
        show Directive.names (if _ then _ else _ : Draft).placed.toList = _
        rw [if_pos hempty, hentries]
        exact (List.append_nil _).symm
      · show Directive.names (if _ then _ else _ : Draft).placed.toList = _
        rw [if_neg hempty, Array.toList_push, Directive.names_append, Directive.names_sectionBlock]

theorem placed_addEntry (d : Draft) (e : SectionEntry) : (d.addEntry e).placed = d.placed := by
  unfold addEntry
  cases d.current <;> rfl

theorem waiting_addEntry (d : Draft) (e : SectionEntry) :
    (d.addEntry e).waiting = d.waiting ++ e.label?.toList := by
  unfold addEntry waiting
  cases d.current with
  | none => cases h : e.label? <;> simp [h]
  | some opened =>
      obtain ⟨name, entries⟩ := opened
      cases h : e.label? <;> simp [h]

theorem arrivals_declared (waiting names : List String) (kind : SymbolKind) (marks : List Mark) :
    arrivals waiting (names.map (.declared · kind) ++ marks) = names ++ arrivals waiting marks := by
  induction names with
  | nil => rfl
  | cons name names ih => rw [List.map_cons, List.cons_append, arrivals, ih, List.cons_append]

/-- Data makes no name known. -/
theorem foldl_data (values : List Bytes) (d : Draft) :
    (values.foldl (fun d bytes => d.addEntry (.data bytes)) d).placed = d.placed ∧
      (values.foldl (fun d bytes => d.addEntry (.data bytes)) d).waiting = d.waiting := by
  induction values generalizing d with
  | nil => exact ⟨rfl, rfl⟩
  | cons bytes values ih =>
      obtain ⟨hplaced, hwaiting⟩ := ih (d.addEntry (.data bytes))
      rw [placed_addEntry] at hplaced
      rw [waiting_addEntry, SectionEntry.label?, Option.toList_none, List.append_nil] at hwaiting
      exact ⟨hplaced, hwaiting⟩

/-- What a statement does to the draft is what its marks say. -/
theorem arrivals_add (d : Draft) (st : Statement) (marks : List Mark) :
    Directive.names (d.add st).placed.toList ++ arrivals (d.add st).waiting marks =
      Directive.names d.placed.toList ++ arrivals d.waiting (st.marks ++ marks) := by
  cases st with
  | label name =>
      rw [add, placed_addEntry, waiting_addEntry]
      rfl
  | mode bits => rfl
  | enter name =>
      show Directive.names d.leave.placed.toList ++ arrivals [] marks = _
      rw [names_leave, List.append_assoc]
      rfl
  | imports names =>
      show Directive.names (d.placed ++ names.map Directive.importSymbol).toList ++
        arrivals d.waiting marks = _
      rw [Array.toList_appendList, Directive.names_append, Directive.names_map fun _ => rfl,
        Statement.marks, arrivals_declared, List.append_assoc]
  | exports names =>
      show Directive.names (d.placed ++ names.map Directive.exportSymbol).toList ++
        arrivals d.waiting marks = _
      rw [Array.toList_appendList, Directive.names_append, Directive.names_map fun _ => rfl,
        Statement.marks, arrivals_declared, List.append_assoc]
  | data values =>
      obtain ⟨hplaced, hwaiting⟩ := foldl_data values d
      rw [add, hplaced, hwaiting]
      rfl
  | instruction mnemonic operands =>
      rw [add, placed_addEntry, waiting_addEntry, SectionEntry.label?, Option.toList_none,
        List.append_nil]
      rfl

theorem arrivals_foldl (sts : List Statement) (d : Draft) :
    Directive.names (sts.foldl add d).leave.placed.toList =
      Directive.names d.placed.toList ++ arrivals d.waiting (sts.flatMap Statement.marks) := by
  induction sts generalizing d with
  | nil => exact names_leave d
  | cons st sts ih => rw [List.foldl_cons, ih, arrivals_add, List.flatMap_cons]

end Listing.Draft

/-- A listing makes names known in the order in which its statements have them arrive. -/
theorem Listing.names_ofStatements (sts : List Statement) :
    (ofStatements sts).actions.filterMap Action.name? = arrivals [] (sts.flatMap Statement.marks) :=
  Draft.arrivals_foldl sts {}

/-! ### Source texts -/

/-- What is assembled from a source text is the listing of its statements. -/
theorem Assembler.run_of_emit {s t : Assembler} {source : String}
    (h : s.emit source = ⟨t, none⟩) :
    ∃ tokens sts, tokenize source = .ok tokens ∧ readStatements tokens = .ok sts ∧
      s.run (Listing.ofStatements sts).actions = ⟨t, none⟩ := by
  unfold emit at h
  cases hactions : s.sourceActions source with
  | error d =>
      rw [hactions] at h
      cases h
  | ok actions =>
      rw [hactions] at h
      unfold sourceActions at hactions
      split at hactions
      · cases hactions
      · obtain ⟨listing, hlisting, rfl⟩ := map_eq_ok.mp hactions
        obtain ⟨tokens, htokens, hlisting⟩ := bind_eq_ok.mp hlisting
        obtain ⟨sts, hsts, rfl⟩ := map_eq_ok.mp hlisting
        exact ⟨tokens, sts, htokens, hsts, h⟩

theorem zipIdx_inj {names names' : List String} : names.zipIdx = names'.zipIdx ↔ names = names' := by
  constructor
  · intro h
    have hfst := congrArg (List.map Prod.fst) h
    rwa [List.zipIdx_map_fst, List.zipIdx_map_fst] at hfst
  · rintro rfl
    rfl

/-- The names of a source text are ranked in the order in which they arrive. -/
theorem ranks_emit {o : Options} {source : String} {t : Assembler}
    (h : ({ options := o } : Assembler).emit source = ⟨t, none⟩) :
    ∃ tokens, tokenize source = .ok tokens ∧
      t.symbols.Ranks (arrivals [] (sourceMarks tokens)).eraseDups := by
  obtain ⟨tokens, sts, htokens, hsts, hrun⟩ := Assembler.run_of_emit h
  have hempty : SymbolTable.Ranks {} ([] : List String).eraseDups := .empty
  have hranks := Assembler.ranks_run hempty hrun
  rw [List.nil_append, Listing.names_ofStatements, ← marks_of_readStatements htokens hsts] at hranks
  exact ⟨tokens, htokens, hranks⟩

/-- The symbols of a source text have the ordinals of the order in which their names arrive.  This is
the order of the first mentions just if the text is orderly. -/
theorem emit_symbols {o : Options} {source : String} {t : Assembler}
    (h : ({ options := o } : Assembler).emit source = ⟨t, none⟩) :
    ∃ tokens, tokenize source = .ok tokens ∧
      t.symbols.toList.map (fun s => (s.name, s.index)) =
        (arrivals [] (sourceMarks tokens)).eraseDups.zipIdx ∧
      (t.symbols.toList.map (fun s => (s.name, s.index)) =
        (mentioned (sourceMarks tokens)).eraseDups.zipIdx ↔
          Orderly [] (stretches (sourceMarks tokens))) := by
  obtain ⟨tokens, htokens, hranks⟩ := ranks_emit h
  refine ⟨tokens, htokens, hranks.toList_eq, ?_⟩
  rw [hranks.toList_eq, zipIdx_inj, eraseDups_arrivals_eq_iff]

/-- The declarations of new names come ahead of the labels here, so the ordinals follow the text. -/
theorem emit_symbols_declared_first : ∃ t tokens,
    ({} : Assembler).emit "extern puts\nglobal main\nmain:\nsection .data\nhelper:" = ⟨t, none⟩ ∧
    tokenize "extern puts\nglobal main\nmain:\nsection .data\nhelper:" = .ok tokens ∧
    t.symbols.toList.map (fun s => (s.name, s.index)) =
      (mentioned (sourceMarks tokens)).eraseDups.zipIdx := by
  have hdone : ({} : Assembler).emit "extern puts\nglobal main\nmain:\nsection .data\nhelper:" =
      ⟨_, none⟩ := congrArg (Outcome.mk _) (by decide +kernel)
  have hmarks : (tokenize "extern puts\nglobal main\nmain:\nsection .data\nhelper:").map
      sourceMarks =
        .ok [.declared "puts" .imported, .declared "main" .exported, .label "main", .enter,
          .label "helper"] := by
    decide +kernel
  obtain ⟨tokens, htokens, _, horder⟩ := emit_symbols hdone
  refine ⟨_, tokens, hdone, htokens, horder.mpr ?_⟩
  rw [htokens] at hmarks
  rw [Except.ok.inj hmarks]
  decide +kernel

/-- A label ahead of the declaration of another name: the text mentions `a` first, but `b` arrives
first and gets the ordinal 0. -/
theorem emit_label_before_global : ∃ t tokens,
    ({} : Assembler).emit "a:\nglobal b\nb:" = ⟨t, none⟩ ∧
    tokenize "a:\nglobal b\nb:" = .ok tokens ∧
    (mentioned (sourceMarks tokens)).eraseDups = ["a", "b"] ∧
    t.symbols.toList.map (fun s => (s.name, s.index)) = [("b", 0), ("a", 1)] := by
  have hdone : ({} : Assembler).emit "a:\nglobal b\nb:" = ⟨_, none⟩ :=
    congrArg (Outcome.mk _) (by decide +kernel)
  have hmarks : (tokenize "a:\nglobal b\nb:").map sourceMarks =
      .ok [.label "a", .declared "b" .exported, .label "b"] := by
    decide +kernel
  obtain ⟨tokens, htokens, hranks⟩ := ranks_emit hdone
  rw [htokens] at hmarks
  rw [Except.ok.inj hmarks] at hranks
  refine ⟨_, tokens, hdone, htokens, ?_, hranks.toList_eq⟩
  rw [Except.ok.inj hmarks]
  rfl

end X64Asm
