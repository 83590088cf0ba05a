import X64Asm.Proofs.ListingContents
import X64Asm.Proofs.Mentions
import X64Asm.Proofs.SymbolRanks

/-! # Kinds of symbols

A name has the kind that it was last declared to be; without a declaration it keeps the kind that it
had, and a label alone makes it a normal symbol (`Assembler.kind?_run`).  Neither the sections nor the
place of a declaration among the entries matter, so the kinds that a listing gives depend on the
declarations and the labels of its statements alone (`Listing.declared_ofStatements`,
`Listing.labels_ofStatements`). -/

namespace X64Asm

/-- The kind that a name is last declared to be. -/
def lastKind? (name : String) (declared : List (String × SymbolKind)) : Option SymbolKind :=
  (declared.filter (·.1 = name)).getLast?.map (·.2)

theorem lastKind?_append (name : String) (declared declared' : List (String × SymbolKind)) :
    lastKind? name (declared ++ declared') =
      (lastKind? name declared').or (lastKind? name declared) := by
  unfold lastKind?
  rw [List.filter_append, List.getLast?_append, Option.map_or]

theorem lastKind?_singleton (name other : String) (kind : SymbolKind) :
    lastKind? name [(other, kind)] = if other = name then some kind else none := by
  unfold lastKind?
  by_cases h : other = name <;> simp [h]

/-! ### One symbol -/

namespace SymbolTable

/-- The kind of the symbol held under a name. -/
def kind? (t : SymbolTable) (name : String) : Option SymbolKind := (t.get? name).map (·.kind)

theorem kind?_declare (t : SymbolTable) (other : String) (kind : SymbolKind) (name : String) :
    (t.declare other kind).kind? name =
      (if other = name then some kind else none).or (t.kind? name) := by
  unfold kind? declare
  rw [get?_insert]
  by_cases h : other = name <;> simp [h]

theorem kind?_intern (t : SymbolTable) (other name : String) :
    (t.intern other).kind? name =
      (t.kind? name).or (if other = name then some .normal else none) := by
  unfold intern
  by_cases hknown : other ∈ t.symbols
  · rw [if_pos hknown]
    by_cases h : other = name
    · subst h
      obtain ⟨symbol, hsymbol⟩ := Option.isSome_iff_exists.mp (mem_symbols_iff.mp hknown)
      simp [kind?, hsymbol]
    · simp [h]
  · have hget : t.get? other = none := by
      rw [← Option.not_isSome_iff_eq_none]
      exact fun h => hknown (mem_symbols_iff.mpr h)
    rw [if_neg hknown, kind?, get?_insert]
    by_cases h : other = name
    · subst h
      simp [kind?, getOrNew, hget]
    · simp [kind?, h]

end SymbolTable

/-! ### Runs -/

/-- The label that an entry defines. -/
def SectionEntry.label? : SectionEntry → Option String
  | label name => some name
  | instruction _ | data _ => none

theorem SectionEntry.label?_eq_none {e : SectionEntry} (h : ∀ name, e ≠ .label name) :
    e.label? = none := by
  cases e with
  | label name => exact absurd rfl (h name)
  | instruction i => rfl
  | data bytes => rfl

namespace Action

/-- What an action says about names. -/
def mark? : Action → Option Mark
  | declare name kind => some (.declared name kind)
  | entry e => e.label?.map .label
  | enter _ _ => none

/-- The name that an action makes known. -/
def name? (action : Action) : Option String := action.mark?.bind Mark.name?

/-- The label that an action defines. -/
def label? (action : Action) : Option String := action.mark?.bind Mark.label?

/-- What an action declares. -/
def declaration? (action : Action) : Option (String × SymbolKind) :=
  action.mark?.bind Mark.declaration?

section constructors

variable (name : String) (kind : SymbolKind) (count : Nat) (e : SectionEntry)

@[simp] theorem name?_declare : (declare name kind).name? = some name := rfl

@[simp] theorem label?_declare : (declare name kind).label? = none := rfl

@[simp] theorem declaration?_declare : (declare name kind).declaration? = some (name, kind) := rfl

@[simp] theorem name?_enter : (enter name count).name? = none := rfl

@[simp] theorem label?_enter : (enter name count).label? = none := rfl

@[simp] theorem declaration?_enter : (enter name count).declaration? = none := rfl

/-- An entry makes known the label that it defines, and declares nothing. -/
@[simp] theorem name?_entry : (entry e).name? = e.label? := by
  cases e <;> rfl

@[simp] theorem label?_entry : (entry e).label? = e.label? := by
  cases e <;> rfl

@[simp] theorem declaration?_entry : (entry e).declaration? = none := by
  cases e <;> rfl

end constructors

theorem filterMap_label? (actions : List Action) :
    actions.filterMap label? = (actions.filterMap entry?).filterMap SectionEntry.label? := by
  rw [List.filterMap_filterMap]
  congr 1
  funext action
  cases action with
  | enter name count => rfl
  | declare name kind => rfl
  | entry e => exact label?_entry e

end Action

/-- The kind that labels give to a name. -/
def labelKind? (name : String) (labels : List String) : Option SymbolKind :=
  if name ∈ labels then some .normal else none

theorem labelKind?_append (name : String) (labels labels' : List String) :
    labelKind? name (labels ++ labels') = (labelKind? name labels).or (labelKind? name labels') := by
  unfold labelKind?
  by_cases h : name ∈ labels <;> simp [h]

namespace Assembler

variable {s t : Assembler}

theorem kind?_perform {action : Action} (h : s.perform action = ⟨t, none⟩) (name : String) :
    t.symbols.kind? name =
      ((lastKind? name action.declaration?.toList).or (s.symbols.kind? name)).or
        (labelKind? name action.label?.toList) := by
  cases action with
  | enter sectionName count =>
      cases h
      simp [lastKind?, labelKind?]
  | declare other kind =>
      cases h
      simp [SymbolTable.kind?_declare, lastKind?_singleton, labelKind?]
  | entry e =>
      have hassembled := assembled_addEntry s e
      rw [show s.addEntry e = ⟨t, none⟩ from h] at hassembled
      cases hassembled with
      | code _ noLabel => simp [lastKind?, labelKind?, SectionEntry.label?_eq_none noLabel]
      | label other =>
          simp [SymbolTable.kind?_intern, SectionEntry.label?, lastKind?, labelKind?, eq_comm]

/-- A run gives each name the kind of its last declaration, else leaves it, and a label makes a new
name a normal symbol. -/
theorem kind?_run {actions : List Action} (h : s.run actions = ⟨t, none⟩) (name : String) :
    t.symbols.kind? name =
      ((lastKind? name (actions.filterMap Action.declaration?)).or (s.symbols.kind? name)).or
        (labelKind? name (actions.filterMap Action.label?)) := by
  induction actions generalizing s with
  | nil =>
      cases h
      simp [lastKind?, labelKind?]
  | cons action actions ih =>
      obtain ⟨after, hafter, h⟩ := run_cons_iff.mp h
      have hcons : ∀ {α : Type} (f : Action → Option α),
          (action :: actions).filterMap f = (f action).toList ++ actions.filterMap f := by
        intro α f
        cases hf : f action <;> simp [hf]
      rw [ih h, kind?_perform hafter, hcons, hcons, lastKind?_append, labelKind?_append]
      simp only [Option.or_assoc]

end Assembler

/-! ### Listings -/

namespace Listing

theorem declared_actions (l : Listing) : l.actions.filterMap Action.declaration? =
    (l.declarations.flatMap Directive.actions).filterMap Action.declaration? := by
  unfold actions declarations
  induction l.directives with
  | nil => rfl
  | cons d ds ih =>
      rw [List.flatMap_cons, List.filterMap_append, ih]
      cases d with
      | importSymbol name => rfl
      | exportSymbol name => rfl
      | sectionBlock name entries =>
          have hnone : (entries.map Action.entry).filterMap Action.declaration? = [] := by
            simp [List.filterMap_map]
          exact hnone ▸ rfl

theorem declared_map {make : String → Directive} {kind : SymbolKind}
    (hmake : ∀ name, (make name).actions = [.declare name kind]) (names : List String) :
    ((names.map make).flatMap Directive.actions).filterMap Action.declaration? =
      (names.map (Mark.declared · kind)).filterMap Mark.declaration? := by
  induction names with
  | nil => rfl
  | cons name names ih =>
      rw [List.map_cons, List.flatMap_cons, hmake, List.filterMap_append, ih]
      rfl

/-- The declarations that a statement puts into the listing are what it declares. -/
theorem declared_declarations (st : Statement) :
    (st.declarations.flatMap Directive.actions).filterMap Action.declaration? = st.declared := by
  cases st with
  | imports names => exact declared_map (fun _ => rfl) names
  | exports names => exact declared_map (fun _ => rfl) names
  | label name => rfl
  | mode bits => rfl
  | enter name => rfl
  | data values => rfl
  | instruction mnemonic operands => rfl

/-- A listing declares what its statements declare, in order. -/
theorem declared_ofStatements (sts : List Statement) :
    (ofStatements sts).actions.filterMap Action.declaration? = sts.flatMap Statement.declared := by
  rw [declared_actions, (ofStatements_contents sts).2, List.flatMap_assoc, List.filterMap_flatMap]
  congr 1
  funext st
  exact declared_declarations st

/-- The entries that a statement spells out define its labels. -/
theorem labels_entries (st : Statement) (bits : UInt8) :
    (st.entries bits).filterMap SectionEntry.label? = st.labels := by
  cases st with
  | data values =>
      simp [Statement.entries, Statement.labels, Statement.marks, List.filterMap_map,
        SectionEntry.label?, Function.comp_def]
  | imports names => simp [Statement.entries]
  | exports names => simp [Statement.entries]
  | label name => rfl
  | mode bits => rfl
  | enter name => rfl
  | instruction mnemonic operands => rfl

theorem labels_contentsFrom (earlier sts : List Statement) :
    ((contentsFrom earlier sts).map (·.2)).filterMap SectionEntry.label? =
      sts.flatMap Statement.labels := by
  induction sts generalizing earlier with
  | nil => rfl
  | cons st sts ih =>
      have hsecond : ∀ es : List SectionEntry,
          (es.map (sectionAfter earlier, ·)).map (·.2) = es := fun es =>
        List.map_map.trans (List.map_id es)
      rw [contentsFrom, List.map_append, List.filterMap_append, ih, hsecond, labels_entries,
        List.flatMap_cons]

/-- A listing defines the labels of its statements, in order. -/
theorem labels_ofStatements (sts : List Statement) :
    (ofStatements sts).actions.filterMap Action.label? = sts.flatMap Statement.labels := by
  rw [Action.filterMap_label?, filterMap_actions, ← map_contents, (ofStatements_contents sts).1,
    labels_contentsFrom]

end Listing

end X64Asm
