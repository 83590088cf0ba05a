import X64Asm.SortedTable

/-! # Look-up in sorted tables

What a search by halving finds is a row of the table under the name that was asked for, and it finds
every row, since the half that it leaves aside holds only names on the other side of the middle. -/

namespace X64Asm.SortedTable

variable {α : Type}

theorem mem_of_search {rows : Array (String × α)} {name : String} {lo hi : Nat} {row : α}
    (h : search rows name lo hi = some row) : (name, row) ∈ rows.toList := by
  fun_induction search rows name lo hi with
  | case1 => cases h
  | case2 _ _ _ _ _ _ _ ih => exact ih h
  | case3 _ _ _ _ _ _ _ _ ih => exact ih h
  | case4 lo hi _ other found hget hlt hgt =>
      have e : other = name := String.le_antisymm (String.not_lt.mp hlt) (String.not_lt.mp hgt)
      cases h
      rw [← e]
      exact Array.mem_toList_iff.mpr (Array.mem_of_getElem? hget)
  | case5 => cases h

/-- A row that is found stands in the table under its name. -/
theorem mem_of_find? {t : SortedTable α} {name : String} {row : α} (h : t.find? name = some row) :
    (name, row) ∈ t.rows.toList :=
  mem_of_search h

/-- The names ascend with their places. -/
theorem lt_of_places {rows : Array (String × α)}
    (hrows : rows.toList.Pairwise (fun a b => a.1 < b.1)) {j k : Nat} {a b : String × α}
    (ha : rows[j]? = some a) (hb : rows[k]? = some b) (h : j < k) : a.1 < b.1 := by
  obtain ⟨hj, rfl⟩ := Array.getElem?_eq_some_iff.mp ha
  obtain ⟨hk, rfl⟩ := Array.getElem?_eq_some_iff.mp hb
  exact List.pairwise_iff_getElem.mp hrows j k hj hk h

/-- A row between the bounds of a search is found. -/
theorem search_of_getElem? {rows : Array (String × α)}
    (hrows : rows.toList.Pairwise (fun a b => a.1 < b.1)) {name : String} {row : α}
    {k lo hi : Nat} (hk : rows[k]? = some (name, row)) (hlo : lo ≤ k) (hhi : k < hi)
    (hsize : hi ≤ rows.size) : search rows name lo hi = some row := by
  fun_induction search rows name lo hi with
  | case1 lo hi _ hnone =>
      rw [Array.getElem?_eq_none_iff] at hnone
      omega
  | case2 lo hi _ other found hget hlt ih =>
      refine ih hlo (Nat.lt_of_not_le fun hle => ?_) (by omega)
      rcases Nat.eq_or_lt_of_le hle with rfl | hbehind
      · rw [hk] at hget
        cases hget
        exact String.lt_irrefl _ hlt
      · exact String.lt_asymm hlt (lt_of_places hrows hget hk hbehind)
  | case3 lo hi _ other found hget _ hlt ih =>
      refine ih (Nat.lt_of_not_le fun hle => ?_) hhi hsize
      rcases Nat.eq_or_lt_of_le hle with rfl | hahead
      · rw [hk] at hget
        cases hget
        exact String.lt_irrefl _ hlt
      · exact String.lt_asymm hlt (lt_of_places hrows hk hget hahead)
  | case4 lo hi _ other found hget hlt hgt =>
      rcases Nat.lt_trichotomy k ((lo + hi) / 2) with hahead | rfl | hbehind
      · exact absurd (lt_of_places hrows hk hget hahead) hlt
      · rw [hk] at hget
        cases hget
        rfl
      · exact absurd (lt_of_places hrows hget hk hbehind) hgt
  | case5 lo hi hempty => omega

/-- Every row of the table is found. -/
theorem find?_of_mem {t : SortedTable α} {name : String} {row : α}
    (h : (name, row) ∈ t.rows.toList) : t.find? name = some row := by
  obtain ⟨k, hk⟩ := List.mem_iff_getElem?.mp h
  rw [Array.getElem?_toList] at hk
  obtain ⟨hlt, _⟩ := Array.getElem?_eq_some_iff.mp hk
  exact search_of_getElem? t.ascending hk (Nat.zero_le k) hlt (Nat.le_refl _)

theorem find?_eq_none {t : SortedTable α} {name : String} :
    t.find? name = none ↔ name ∉ t.names := by
  constructor
  · intro h hmem
    obtain ⟨⟨_, row⟩, hrow, rfl⟩ := List.mem_map.mp hmem
    rw [find?_of_mem hrow] at h
    cases h
  · intro h
    cases hfind : t.find? name with
    | none => rfl
    | some row => exact absurd (List.mem_map.mpr ⟨_, mem_of_find? hfind, rfl⟩) h

end X64Asm.SortedTable
