import Mathlib.Data.List.Induction
import Mathlib.Data.List.Perm.Subperm
import X64Asm.SymbolTable

/-! # Symbols in order

A table that has been built up name by name ranks the names in the order in which they came up:
`t.Ranks names` says that the symbols of `t` are those of `names`, each with its position as ordinal.
Making a name known keeps such a table ranked (`Ranks.intern`, `Ranks.declare`), and the symbols are
then listed in that order (`Ranks.toList_eq`). -/

namespace X64Asm

/-! ### First mentions -/

/-- A name that comes up again does not count. -/
theorem eraseDups_concat (names : List String) (name : String) :
    (names ++ [name]).eraseDups =
      if name ∈ names then names.eraseDups else names.eraseDups ++ [name] := by
  rw [List.eraseDups_append, List.cons_removeAll, List.nil_removeAll]
  by_cases h : name ∈ names
  · simp [h]
  · simp [h, List.eraseDups_cons]

theorem nodup_eraseDups (names : List String) : names.eraseDups.Nodup := by
  induction names using List.reverseRecOn with
  | nil => exact List.nodup_nil
  | append_singleton names name ih =>
      rw [eraseDups_concat]
      by_cases h : name ∈ names
      · rw [if_pos h]
        exact ih
      · rw [if_neg h, List.nodup_append]
        refine ⟨ih, List.pairwise_singleton _ name, ?_⟩
        rintro other hother _ hname rfl
        rw [List.mem_singleton.mp hname] at hother
        exact h (List.mem_eraseDups.mp hother)

theorem eraseDups_filter (p : String → Bool) (names : List String) :
    (names.filter p).eraseDups = names.eraseDups.filter p := by
  induction names using List.reverseRecOn with
  | nil => rfl
  | append_singleton names name ih =>
      rw [eraseDups_concat, List.filter_append]
      by_cases hp : p name = true
      · rw [List.filter_cons_of_pos hp, List.filter_nil, eraseDups_concat, ih]
        by_cases h : name ∈ names
        · rw [if_pos h, if_pos (List.mem_filter.mpr ⟨h, hp⟩)]
        · rw [if_neg h, if_neg fun hmem => h (List.mem_filter.mp hmem).1, List.filter_append,
            List.filter_cons_of_pos hp, List.filter_nil]
      · rw [List.filter_cons_of_neg hp, List.filter_nil, List.append_nil, ih]
        by_cases h : name ∈ names
        · rw [if_pos h]
        · rw [if_neg h, List.filter_append, List.filter_cons_of_neg hp, List.filter_nil,
            List.append_nil]

/-! ### Ranked tables -/

namespace SymbolTable

/-- The symbols are those of the given names, and their ordinals the positions there. -/
structure Ranks (t : SymbolTable) (names : List String) : Prop where
  size : t.size = names.length
  known : ∀ i name, names[i]? = some name → ∃ kind, t.get? name = some ⟨name, i, kind⟩
  unknown : ∀ name, name ∉ names → t.get? name = none

variable {t : SymbolTable} {names : List String} {name : String}

theorem Ranks.empty : Ranks {} [] where
  size := rfl
  known := by
    intro i name h
    cases h
  unknown := by
    intro name _
    simp [get?]

theorem mem_symbols_iff : name ∈ t.symbols ↔ (t.get? name).isSome = true :=
  Std.ExtTreeMap.mem_iff_isSome_getElem?

theorem size_insert (t : SymbolTable) (name : String) (symbol : Symbol) :
    (t.insert name symbol).size = if (t.get? name).isSome then t.size else t.size + 1 := by
  unfold size insert get?
  rw [Std.ExtTreeMap.size_insert, Std.ExtTreeMap.contains_eq_isSome_getElem?]

namespace Ranks

theorem exists_of_mem (h : t.Ranks names) (hname : name ∈ names) :
    ∃ i kind, names[i]? = some name ∧ t.get? name = some ⟨name, i, kind⟩ := by
  obtain ⟨i, hi⟩ := List.mem_iff_getElem?.mp hname
  obtain ⟨kind, hkind⟩ := h.known i name hi
  exact ⟨i, kind, hi, hkind⟩

/-- The kind of a known symbol may change. -/
theorem insert_known (h : t.Ranks names) {i : Nat} (hi : names[i]? = some name)
    (kind : SymbolKind) : (t.insert name ⟨name, i, kind⟩).Ranks names where
  size := by
    obtain ⟨kind', hkind'⟩ := h.known i name hi
    rw [size_insert, hkind']
    exact h.size
  known := by
    intro j other hj
    rw [get?_insert]
    by_cases hother : name = other
    · subst hother
      obtain ⟨kind', hi'⟩ := h.known i name hi
      obtain ⟨kind'', hj'⟩ := h.known j name hj
      rw [hi'] at hj'
      cases hj'
      exact ⟨kind, if_pos rfl⟩
    · rw [if_neg hother]
      exact h.known j other hj
  unknown := by
    intro other hother
    rw [get?_insert, if_neg, h.unknown other hother]
    rintro rfl
    exact hother (List.mem_of_getElem? hi)

/-- A new symbol comes last. -/
theorem insert_new (h : t.Ranks names) (hname : name ∉ names) (kind : SymbolKind) :
    (t.insert name ⟨name, names.length, kind⟩).Ranks (names ++ [name]) where
  size := by
    rw [size_insert, h.unknown name hname, List.length_append, List.length_singleton, ← h.size]
    rfl
  known := by
    intro i other hi
    rw [get?_insert]
    rcases Nat.lt_trichotomy i names.length with hlt | rfl | hgt
    · rw [List.getElem?_append_left hlt] at hi
      have hne : name ≠ other := by
        rintro rfl
        exact hname (List.mem_of_getElem? hi)
      rw [if_neg hne]
      exact h.known i other hi
    · rw [List.getElem?_concat_length] at hi
      cases hi
      exact ⟨kind, if_pos rfl⟩
    · rw [List.getElem?_eq_none (by simp; omega)] at hi
      cases hi
  unknown := by
    intro other hother
    rw [List.mem_append, List.mem_singleton, not_or] at hother
    rw [get?_insert, if_neg (Ne.symm hother.2), h.unknown other hother.1]

/-- A name that is made known keeps its rank or gets the next. -/
theorem intern (h : t.Ranks names.eraseDups) (name : String) :
    (t.intern name).Ranks (names ++ [name]).eraseDups := by
  unfold SymbolTable.intern
  rw [eraseDups_concat]
  by_cases hname : name ∈ names
  · obtain ⟨i, kind, _, hget⟩ := h.exists_of_mem (List.mem_eraseDups.mpr hname)
    rw [if_pos hname, if_pos (mem_symbols_iff.mpr (by rw [hget]; rfl))]
    exact h
  · have hget := h.unknown name (fun hmem => hname (List.mem_eraseDups.mp hmem))
    have hnot : name ∉ t.symbols := by
      rw [mem_symbols_iff, hget]
      exact Bool.false_ne_true
    rw [if_neg hname, if_neg hnot, getOrNew, hget, Option.getD_none, h.size]
    exact h.insert_new (fun hmem => hname (List.mem_eraseDups.mp hmem)) .normal

theorem declare (h : t.Ranks names.eraseDups) (name : String) (kind : SymbolKind) :
    (t.declare name kind).Ranks (names ++ [name]).eraseDups := by
  unfold SymbolTable.declare
  rw [eraseDups_concat]
  by_cases hname : name ∈ names
  · obtain ⟨i, kind', hi, hget⟩ := h.exists_of_mem (List.mem_eraseDups.mpr hname)
    rw [if_pos hname, getOrNew, hget]
    exact h.insert_known hi kind
  · have hget := h.unknown name (fun hmem => hname (List.mem_eraseDups.mp hmem))
    rw [if_neg hname, getOrNew, hget, Option.getD_none, h.size]
    exact h.insert_new (fun hmem => hname (List.mem_eraseDups.mp hmem)) kind

/-! ### The list of symbols -/

/-- A symbol is held under its own name and stands at its ordinal. -/
theorem of_get? (h : t.Ranks names) {symbol : Symbol} (hget : t.get? name = some symbol) :
    symbol.name = name ∧ names[symbol.index]? = some name := by
  by_cases hname : name ∈ names
  · obtain ⟨i, kind, hi, hget'⟩ := h.exists_of_mem hname
    rw [hget] at hget'
    cases hget'
    exact ⟨rfl, hi⟩
  · rw [h.unknown name hname] at hget
    cases hget

theorem perm_zipIdx (h : t.Ranks names) :
    ((t.symbols.toList.map (·.2)).map fun s => (s.name, s.index)).Perm names.zipIdx := by
  rw [List.map_map]
  have hheld : ∀ entry ∈ t.symbols.toList,
      entry.2.name = entry.1 ∧ names[entry.2.index]? = some entry.1 := by
    intro entry hentry
    exact h.of_get? (Std.ExtTreeMap.mem_toList_iff_getElem?_eq_some.mp hentry)
  have hnodup : (t.symbols.toList.map
      ((fun s => (s.name, s.index)) ∘ fun entry : String × Symbol => entry.2)).Nodup := by
    rw [List.Nodup, List.pairwise_map]
    refine List.Pairwise.imp_of_mem ?_ Std.ExtTreeMap.distinct_keys_toList
    intro a b ha hb hkeys hpair
    simp only [Function.comp_apply, Prod.mk.injEq] at hpair
    rw [(hheld a ha).1, (hheld b hb).1] at hpair
    rw [hpair.1] at hkeys
    exact hkeys Std.ReflCmp.compare_self
  have hsubset : t.symbols.toList.map
      ((fun s => (s.name, s.index)) ∘ fun entry : String × Symbol => entry.2) ⊆ names.zipIdx := by
    intro pair hpair
    obtain ⟨entry, hentry, rfl⟩ := List.mem_map.mp hpair
    obtain ⟨hname, hindex⟩ := hheld entry hentry
    rw [Function.comp_apply, List.mk_mem_zipIdx_iff_getElem?, hname]
    exact hindex
  apply (List.subperm_of_subset hnodup hsubset).perm_of_length_le
  rw [List.length_zipIdx, List.length_map, Std.ExtTreeMap.length_toList]
  exact Nat.le_of_eq h.size.symm

/-- The symbols are listed in the order of the names. -/
theorem toList_eq (h : t.Ranks names) :
    t.toList.map (fun s => (s.name, s.index)) = names.zipIdx := by
  have hsorted : t.toList.Pairwise fun a b => decide (a.index ≤ b.index) = true := by
    apply List.pairwise_mergeSort
    · intro a b c hab hbc
      rw [decide_eq_true_eq] at hab hbc ⊢
      exact Nat.le_trans hab hbc
    · intro a b
      rw [Bool.or_eq_true, decide_eq_true_eq, decide_eq_true_eq]
      exact Nat.le_total a.index b.index
  have hperm : (t.toList.map fun s => (s.name, s.index)).Perm names.zipIdx :=
    ((List.mergeSort_perm _ _).map _).trans h.perm_zipIdx
  have hindex : (t.toList.map fun s => (s.name, s.index)).Pairwise fun a b => a.2 ≤ b.2 := by
    rw [List.pairwise_map]
    exact hsorted.imp of_decide_eq_true
  have hzipIdx : names.zipIdx.Pairwise fun a b => a.2 ≤ b.2 := by
    rw [← List.pairwise_map (f := Prod.snd) (R := (· ≤ ·)), List.zipIdx_map_snd]
    exact List.pairwise_le_range' 1
  refine List.Perm.eq_of_pairwise ?_ hindex hzipIdx hperm
  rintro ⟨name, i⟩ ⟨name', i'⟩ ha hb hle hge
  obtain rfl : i = i' := Nat.le_antisymm hle hge
  have ha' := List.mk_mem_zipIdx_iff_getElem?.mp (hperm.mem_iff.mp ha)
  have hb' := List.mk_mem_zipIdx_iff_getElem?.mp hb
  rw [ha'] at hb'
  cases hb'
  rfl

/-- The symbols listed are those that are held under their own name. -/
theorem mem_toList_iff (h : t.Ranks names) {symbol : Symbol} :
    symbol ∈ t.toList ↔ t.get? symbol.name = some symbol := by
  constructor
  · intro hsymbol
    obtain ⟨entry, hentry, rfl⟩ := List.mem_map.mp (List.mem_mergeSort.mp hsymbol)
    have hget : t.get? entry.1 = some entry.2 :=
      Std.ExtTreeMap.mem_toList_iff_getElem?_eq_some.mp hentry
    rw [(h.of_get? hget).1]
    exact hget
  · intro hget
    apply List.mem_mergeSort.mpr
    exact List.mem_map.mpr
      ⟨(symbol.name, symbol), Std.ExtTreeMap.mem_toList_iff_getElem?_eq_some.mpr hget, rfl⟩

theorem map_name_toList (h : t.Ranks names) : t.toList.map (·.name) = names := by
  have hlist := congrArg (List.map Prod.fst) h.toList_eq
  rw [List.map_map, List.zipIdx_map_fst] at hlist
  exact hlist

/-- The list holds what is held under the names. -/
theorem toList_eq_filterMap (h : t.Ranks names) : t.toList = names.filterMap t.get? := by
  rw [← h.map_name_toList, List.filterMap_map]
  symm
  calc t.toList.filterMap (t.get? ∘ (·.name))
      = t.toList.filterMap some := List.filterMap_congr fun s hs => h.mem_toList_iff.mp hs
    _ = t.toList := List.filterMap_some

end Ranks

end SymbolTable

end X64Asm
