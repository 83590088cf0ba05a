import X64Asm.Proofs.SymbolKinds

/-! # The history of a symbol table

A table that was empty in the beginning is told by the calls that were made since
(`SymbolTable.follows_afterCalls`): the names in the order in which they came up give the ordinals, and
the last kind that a name was given is its kind.  An ordinal that a call carries along does not matter.

A call that replaces a symbol does what a declaration does (`SymbolTable.Ranks.update_eq`), so the
lemmas about ranked tables cover all calls. -/

namespace X64Asm

/-- A call that changes a symbol table. -/
inductive SymbolCall where
  /-- Makes a name known. -/
  | resolve (name : String)
  | importSymbol (name : String)
  | exportSymbol (name : String)
  /-- Replaces the symbol under its own name. -/
  | update (symbol : Symbol)
  deriving DecidableEq, Repr

namespace SymbolCall

/-- The name that the call is about. -/
def name : SymbolCall → String
  | resolve name | importSymbol name | exportSymbol name => name
  | update symbol => symbol.name

/-- The kind that the call sets. -/
def kind? : SymbolCall → Option SymbolKind
  | resolve _ => none
  | importSymbol _ => some .imported
  | exportSymbol _ => some .exported
  | update symbol => some symbol.kind

/-- The name with the kind that the call sets. -/
def declaration? (call : SymbolCall) : Option (String × SymbolKind) :=
  call.kind?.map fun kind => (call.name, kind)

end SymbolCall

namespace SymbolTable

/-- The table after a call. -/
def call (t : SymbolTable) : SymbolCall → SymbolTable
  | .resolve name => t.intern name
  | .importSymbol name => t.declare name .imported
  | .exportSymbol name => t.declare name .exported
  | .update symbol => t.update symbol

/-- The table after a sequence of calls, the first of them on an empty table. -/
def afterCalls (calls : List SymbolCall) : SymbolTable := calls.foldl call {}

/-- The second table has what the first has, but for the kind of one name, and perhaps that name
anew. -/
structure Keeps (t after : SymbolTable) (name : String) : Prop where
  others : ∀ other, other ≠ name → after.get? other = t.get? other
  ordinal : ∀ symbol, t.get? name = some symbol →
    ∃ symbol', after.get? name = some symbol' ∧ symbol'.index = symbol.index

/-- The table is told by the calls. -/
structure Follows (t : SymbolTable) (calls : List SymbolCall) : Prop where
  /-- The names that have come up are known, and no others. -/
  known : ∀ name, (∃ symbol, t.get? name = some symbol) ↔ name ∈ calls.map (·.name)
  ownName : ∀ name symbol, t.get? name = some symbol → symbol.name = name
  ordinal_lt : ∀ name symbol, t.get? name = some symbol → symbol.index < t.size
  /-- Each ordinal below the number of symbols is that of one name. -/
  ordinals : ∀ i, i < t.size → ∃! name, (t.get? name).map (·.index) = some i
  byOrdinal : t.toList.map (·.index) = List.range t.size
  /-- The order of the ordinals is that in which the names first came up. -/
  byName : t.toList = (calls.map (·.name)).eraseDups.filterMap t.get?
  /-- The kind is the one that was set last. -/
  kind : ∀ name symbol, t.get? name = some symbol →
    symbol.kind = (lastKind? name (calls.filterMap (·.declaration?))).getD .normal

variable {t : SymbolTable} {names : List String}

/-! ### One call -/

theorem get?_intern_of_ne (t : SymbolTable) {name other : String} (h : other ≠ name) :
    (t.intern name).get? other = t.get? other := by
  unfold intern
  split
  · rfl
  · rw [get?_insert, if_neg (Ne.symm h)]

theorem get?_intern_of_known {name : String} {symbol : Symbol} (h : t.get? name = some symbol) :
    (t.intern name).get? name = some symbol := by
  have hmem : name ∈ t.symbols := mem_symbols_iff.mpr (by rw [h]; rfl)
  rw [intern, if_pos hmem, h]

theorem keeps_insert {name : String} {symbol : Symbol}
    (h : symbol.index = (t.getOrNew name).index) : t.Keeps (t.insert name symbol) name where
  others := by
    intro other hother
    rw [get?_insert, if_neg (Ne.symm hother)]
  ordinal := by
    intro old hold
    rw [getOrNew, hold] at h
    exact ⟨symbol, by rw [get?_insert, if_pos rfl], h⟩

/-- A call changes no other symbol, and no ordinal. -/
theorem keeps_call (t : SymbolTable) (call : SymbolCall) : t.Keeps (t.call call) call.name := by
  cases call with
  | resolve name =>
      exact ⟨fun other hother => t.get?_intern_of_ne hother,
        fun symbol hsymbol => ⟨symbol, get?_intern_of_known hsymbol, rfl⟩⟩
  | importSymbol name => exact keeps_insert rfl
  | exportSymbol name => exact keeps_insert rfl
  | update symbol => exact keeps_insert rfl

/-- Where symbols are held under their own names, to replace one is to declare its kind. -/
theorem Ranks.update_eq (h : t.Ranks names) (symbol : Symbol) :
    t.update symbol = t.declare symbol.name symbol.kind := by
  have hname : (t.getOrNew symbol.name).name = symbol.name := by
    unfold getOrNew
    cases hget : t.get? symbol.name with
    | none => rfl
    | some held => exact (h.of_get? hget).1
  unfold update SymbolTable.declare
  congr 1
  rw [Symbol.mk.injEq]
  exact ⟨hname.symm, rfl, rfl⟩

theorem Ranks.call (h : t.Ranks names.eraseDups) (call : SymbolCall) :
    (t.call call).Ranks (names ++ [call.name]).eraseDups := by
  cases call with
  | resolve name => exact h.intern name
  | importSymbol name => exact h.declare name .imported
  | exportSymbol name => exact h.declare name .exported
  | update symbol =>
      have hdeclare := h.declare symbol.name symbol.kind
      rw [← h.update_eq symbol] at hdeclare
      exact hdeclare

/-- A call sets the kind of its name, or makes the name a normal symbol if it is new. -/
theorem Ranks.kind?_call (h : t.Ranks names) (call : SymbolCall) (name : String) :
    (t.call call).kind? name =
      ((lastKind? name call.declaration?.toList).or (t.kind? name)).or
        (labelKind? name [call.name]) := by
  have hdeclare : ∀ other kind, (t.declare other kind).kind? name =
      ((lastKind? name [(other, kind)]).or (t.kind? name)).or (labelKind? name [other]) := by
    intro other kind
    rw [kind?_declare, lastKind?_singleton]
    by_cases hother : other = name
    · simp [hother]
    · simp [hother, labelKind?, Ne.symm hother]
  cases call with
  | resolve other =>
      rw [SymbolTable.call, kind?_intern]
      simp [SymbolCall.declaration?, SymbolCall.kind?, SymbolCall.name, lastKind?, labelKind?, eq_comm]
  | importSymbol other => exact hdeclare other .imported
  | exportSymbol other => exact hdeclare other .exported
  | update symbol =>
      rw [SymbolTable.call, h.update_eq]
      exact hdeclare symbol.name symbol.kind

/-! ### Many calls -/

theorem afterCalls_concat (calls : List SymbolCall) (call : SymbolCall) :
    afterCalls (calls ++ [call]) = (afterCalls calls).call call := List.foldl_concat ..

theorem ranks_afterCalls (calls : List SymbolCall) :
    (afterCalls calls).Ranks (calls.map (·.name)).eraseDups := by
  induction calls using List.reverseRecOn with
  | nil => exact .empty
  | append_singleton calls call ih =>
      rw [afterCalls_concat, List.map_append]
      exact ih.call call

theorem kind?_afterCalls (calls : List SymbolCall) (name : String) :
    (afterCalls calls).kind? name =
      (lastKind? name (calls.filterMap (·.declaration?))).or
        (labelKind? name (calls.map (·.name))) := by
  induction calls using List.reverseRecOn with
  | nil => simp [afterCalls, kind?, get?, lastKind?, labelKind?]
  | append_singleton calls call ih =>
      have hlast : [call].filterMap (·.declaration?) = call.declaration?.toList := by
        cases hdeclaration : call.declaration? <;> simp [hdeclaration]
      rw [afterCalls_concat, (ranks_afterCalls calls).kind?_call, ih, List.filterMap_append,
        List.map_append, lastKind?_append, labelKind?_append, hlast]
      simp only [Option.or_assoc, List.map_cons, List.map_nil]

theorem Ranks.map_index_toList (h : t.Ranks names) :
    t.toList.map (·.index) = List.range t.size := by
  have hlist := congrArg (List.map Prod.snd) h.toList_eq
  rw [List.map_map, List.zipIdx_map_snd, ← h.size, ← List.range_eq_range'] at hlist
  exact hlist

/-- Names with the same ordinal are the same. -/
theorem Ranks.existsUnique (h : t.Ranks names) {i : Nat} (hi : i < t.size) :
    ∃! name, (t.get? name).map (·.index) = some i := by
  rw [h.size] at hi
  have hname : names[i]? = some names[i] := List.getElem?_eq_getElem hi
  obtain ⟨kind, hget⟩ := h.known i _ hname
  refine ⟨names[i], congrArg (Option.map (·.index)) hget, ?_⟩
  intro other hother
  obtain ⟨symbol, hsymbol, rfl⟩ := Option.map_eq_some_iff.mp hother
  have hplace := (h.of_get? hsymbol).2
  rw [hname] at hplace
  exact (Option.some.inj hplace).symm

/-- Whatever calls are made on an empty table, the table is told by them, and a further call changes
one name alone. -/
theorem follows_afterCalls (calls : List SymbolCall) :
    (afterCalls calls).Follows calls ∧
      ∀ call : SymbolCall, (afterCalls calls).Keeps (afterCalls (calls ++ [call])) call.name := by
  have hranks := ranks_afterCalls calls
  constructor
  · constructor
    · intro name
      rw [← List.mem_eraseDups]
      constructor
      · rintro ⟨symbol, hsymbol⟩
        exact List.mem_of_getElem? (hranks.of_get? hsymbol).2
      · intro hname
        obtain ⟨i, kind, _, hget⟩ := hranks.exists_of_mem hname
        exact ⟨_, hget⟩
    · intro name symbol hsymbol
      exact (hranks.of_get? hsymbol).1
    · intro name symbol hsymbol
      rw [hranks.size]
      exact (List.getElem?_eq_some_iff.mp (hranks.of_get? hsymbol).2).1
    · intro i hi
      exact hranks.existsUnique hi
    · exact hranks.map_index_toList
    · exact hranks.toList_eq_filterMap
    · intro name symbol hsymbol
      have hkind := kind?_afterCalls calls name
      rw [kind?, hsymbol] at hkind
      cases hlast : lastKind? name (calls.filterMap (·.declaration?)) with
      | some kind =>
          rw [hlast] at hkind
          exact Option.some.inj hkind
      | none =>
          rw [hlast, Option.none_or, labelKind?] at hkind
          split at hkind
          · exact Option.some.inj hkind
          · cases hkind
  · intro call
    rw [afterCalls_concat]
    exact keeps_call _ call

/-- A forged ordinal does not count, and the last kind does. -/
example :
    let t := afterCalls [.resolve "b", .update ⟨"a", 7, .exported⟩, .importSymbol "b",
      .update ⟨"b", 9, .normal⟩, .importSymbol "c", .resolve "c"]
    [t.get? "a", t.get? "b", t.get? "c"] =
      [some ⟨"a", 1, .exported⟩, some ⟨"b", 0, .normal⟩, some ⟨"c", 2, .imported⟩] := by
  decide +kernel

end SymbolTable

end X64Asm
