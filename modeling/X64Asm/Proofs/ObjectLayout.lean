import Mathlib.Data.List.Forall2
import X64Asm.ObjectFile.Image
import X64Asm.Proofs.ElfReader

/-! # The layout of an object file

Sections are laid out one after the other, each at the next offset that suits its alignment.

* `Elf.WellPlaced` says what is asked of the places of sections in a file.
* `wellPlaced_placedFrom`: sections that are laid out behind the headers are well placed, and
  `slice?_placedFrom`: the contents of each are found at its place.
* `StringTable.textAt?_offsets`: each name of a string table is found at its offset. -/

namespace X64Asm

/-! ### Places of sections -/

namespace Elf

/-- The offsets that a section takes up. -/
def Section.Covers (s : Section) (i : Nat) : Prop :=
  s.header.offset ≤ i ∧ i < s.header.offset + s.header.size

/-- The sections stand in the file from `start` on, each at a multiple of its alignment and behind the
one before it.  What they leave free is zero, and the last of them ends the file. -/
structure WellPlaced (file : Bytes) (start : Nat) (sections : List Section) : Prop where
  after : ∀ s ∈ sections, start ≤ s.header.offset
  inside : ∀ s ∈ sections, s.header.offset + s.header.size ≤ file.length
  aligned : ∀ s ∈ sections, s.header.align ∣ s.header.offset
  disjoint : sections.Pairwise fun a b => a.header.offset + a.header.size ≤ b.header.offset
  padding : ∀ i byte, start ≤ i → (∀ s ∈ sections, ¬ s.Covers i) → file[i]? = some byte → byte = 0
  ends : ∀ s, sections.getLast? = some s → s.header.offset + s.header.size = file.length

namespace WellPlaced

variable {file : Bytes} {start : Nat} {s : Section} {sections : List Section}

theorem nil (h : file.length ≤ start) : WellPlaced file start [] where
  after := by simp
  inside := by simp
  aligned := by simp
  disjoint := .nil
  padding := by
    intro i byte hi _ hbyte
    rw [List.getElem?_eq_none (Nat.le_trans h hi)] at hbyte
    cases hbyte
  ends := by simp

/-- A section may be put in front of others if there is nothing but zeros before it. -/
theorem cons (hstart : start ≤ s.header.offset) (haligned : s.header.align ∣ s.header.offset)
    (hgap : ∀ i byte, start ≤ i → i < s.header.offset → file[i]? = some byte → byte = 0)
    (hinside : s.header.offset + s.header.size ≤ file.length)
    (hlast : sections = [] → s.header.offset + s.header.size = file.length)
    (h : WellPlaced file (s.header.offset + s.header.size) sections) :
    WellPlaced file start (s :: sections) where
  after := by
    rw [List.forall_mem_cons]
    refine ⟨hstart, ?_⟩
    intro other hother
    have hafter := h.after other hother
    omega
  inside := List.forall_mem_cons.mpr ⟨hinside, h.inside⟩
  aligned := List.forall_mem_cons.mpr ⟨haligned, h.aligned⟩
  disjoint := .cons h.after h.disjoint
  padding := by
    intro i byte hi hfree hbyte
    obtain ⟨hs, hothers⟩ := List.forall_mem_cons.mp hfree
    rcases Nat.lt_or_ge i s.header.offset with hlt | hge
    · exact hgap i byte hi hlt hbyte
    · have hbehind : s.header.offset + s.header.size ≤ i :=
        Nat.le_of_not_lt fun hlt => hs ⟨hge, hlt⟩
      exact h.padding i byte hbehind hothers hbyte
  ends := by
    intro last hlast'
    cases sections with
    | nil =>
        cases hlast'
        exact hlast rfl
    | cons other others =>
        rw [List.getLast?_cons_cons] at hlast'
        exact h.ends last hlast'

end WellPlaced

end Elf

/-! ### Laying out -/

theorem le_alignUp {align : Nat} (h : 0 < align) (n : Nat) : n ≤ alignUp n align := by
  have hdiv := Nat.div_add_mod (n + align - 1) align
  have hmod := Nat.mod_lt (n + align - 1) h
  rw [Nat.mul_comm] at hdiv
  unfold alignUp
  omega

theorem dvd_alignUp (n align : Nat) : align ∣ alignUp n align := Nat.dvd_mul_left _ _

namespace ObjectSection

/-- The section as it is found at the given place. -/
def placed (s : ObjectSection) (name offset : Nat) : Elf.Section where
  header := {
    name
    type := s.type
    flags := s.flags
    offset
    size := s.contents.length
    link := s.link
    info := s.info
    align := s.align
    entrySize := s.entrySize }
  name := s.name
  contents := s.contents

/-- The sections as they are found from `start` on, with their names at the given offsets. -/
def placedFrom (start : Nat) (ss : List ObjectSection) (names : List Nat) : List Elf.Section :=
  (ss.zip (names.zip (offsetsFrom start ss))).map fun (s, name, offset) => s.placed name offset

variable {start : Nat} {s : ObjectSection} {ss : List ObjectSection} {names : List Nat}

theorem placedFrom_cons (start : Nat) (s : ObjectSection) (ss : List ObjectSection) (name : Nat)
    (names : List Nat) :
    placedFrom start (s :: ss) (name :: names) =
      s.placed name (alignUp start s.align) ::
        placedFrom (alignUp start s.align + s.contents.length) ss names := rfl

theorem bodiesFrom_cons (before : Bytes) (start : Nat) (s : ObjectSection)
    (ss : List ObjectSection) :
    before ++ bodiesFrom start (s :: ss) =
      (before ++ List.replicate (alignUp start s.align - start) 0 ++ s.contents) ++
        bodiesFrom (alignUp start s.align + s.contents.length) ss := by
  simp only [bodiesFrom, List.append_assoc]

theorem wellPlaced_placedFrom {before : Bytes} (hbefore : before.length = start)
    (hnames : names.length = ss.length) (halign : ∀ s ∈ ss, 0 < s.align) :
    Elf.WellPlaced (before ++ bodiesFrom start ss) start (placedFrom start ss names) := by
  induction ss generalizing before start names with
  | nil =>
      apply Elf.WellPlaced.nil
      rw [bodiesFrom, List.append_nil]
      exact Nat.le_of_eq hbefore
  | cons s ss ih =>
      obtain ⟨name, names, rfl⟩ := List.exists_cons_of_length_eq_add_one hnames
      obtain ⟨hs, hss⟩ := List.forall_mem_cons.mp halign
      have hle := le_alignUp hs start
      have hend : (before ++ List.replicate (alignUp start s.align - start) 0 ++
          s.contents).length = alignUp start s.align + s.contents.length := by
        simp only [List.length_append, List.length_replicate, hbefore]
        omega
      rw [placedFrom_cons, bodiesFrom_cons]
      refine .cons hle (dvd_alignUp start s.align) ?_ ?_ ?_
        (ih hend (Nat.succ.inj hnames) hss)
      · intro i byte hi hlt hbyte
        change i < alignUp start s.align at hlt
        rw [List.append_assoc, List.append_assoc, List.getElem?_append_right (by omega),
          List.getElem?_append_left (by rw [List.length_replicate]; omega)] at hbyte
        exact (List.mem_replicate.mp (List.mem_of_getElem? hbyte)).2
      · rw [List.length_append, hend]
        exact Nat.le_add_right _ _
      · intro hnil
        have hss : ss = [] := by
          cases ss with
          | nil => rfl
          | cons s' ss =>
              obtain ⟨name', names, rfl⟩ :=
                List.exists_cons_of_length_eq_add_one (Nat.succ.inj hnames)
              cases hnil
        rw [hss, List.length_append, hend]
        rfl

/-- The contents of a section are found at its place. -/
theorem slice?_placedFrom {before : Bytes} (hbefore : before.length = start)
    (halign : ∀ s ∈ ss, 0 < s.align) :
    ∀ s ∈ placedFrom start ss names,
      Elf.slice? (before ++ bodiesFrom start ss) s.header.offset s.header.size =
        some s.contents := by
  induction ss generalizing before start names with
  | nil => simp [placedFrom]
  | cons s ss ih =>
      cases names with
      | nil => simp [placedFrom]
      | cons name names =>
          obtain ⟨hs, hss⟩ := List.forall_mem_cons.mp halign
          have hle := le_alignUp hs start
          have hstart : (before ++ List.replicate (alignUp start s.align - start) 0).length =
              alignUp start s.align := by
            rw [List.length_append, List.length_replicate]
            omega
          rw [placedFrom_cons, bodiesFrom_cons, List.forall_mem_cons]
          refine ⟨?_, ih (by rw [List.length_append, hstart]) hss⟩
          have hfound := Elf.slice?_append
            (before ++ List.replicate (alignUp start s.align - start) 0) s.contents
            (bodiesFrom (alignUp start s.align + s.contents.length) ss)
          rw [hstart] at hfound
          exact hfound

/-- The names of sections are found if their offsets are right. -/
theorem textAt?_placedFrom {strings : Bytes}
    (h : List.Forall₂ (fun s name => Elf.textAt? strings name = some s.name) ss names) :
    ∀ s ∈ placedFrom start ss names, Elf.textAt? strings s.header.name = some s.name := by
  induction h generalizing start with
  | nil => simp [placedFrom]
  | cons hname _ ih =>
      rw [placedFrom_cons, List.forall_mem_cons]
      exact ⟨hname, ih⟩

end ObjectSection

/-! ### String tables -/

namespace StringTable

theorem textAt?_zero (strings : Bytes) : Elf.textAt? (0 :: strings) 0 = some "" := by
  exact @Elf.textAt?_append "" (by simp [Bytes.ofString]) [] strings

/-- Names that are laid out behind others are found at their offsets, which are inside the table. -/
theorem textAt?_offsetsFrom {names : List String} (h : ∀ name ∈ names, 0 ∉ Bytes.ofString name)
    (before : Bytes) :
    List.Forall₂ (fun name offset =>
        Elf.textAt? (0 :: before ++ names.flatMap nameBytes) offset = some name ∧
          offset < (0 :: before ++ names.flatMap nameBytes).length)
      names (offsetsFrom (before.length + 1) names) := by
  induction names generalizing before with
  | nil => exact .nil
  | cons name names ih =>
      obtain ⟨hname, hnames⟩ := List.forall_mem_cons.mp h
      have hrest := ih hnames (before ++ nameBytes name)
      have hstart : (before ++ nameBytes name).length + 1 =
          before.length + 1 + (nameBytes name).length := by
        rw [List.length_append]
        omega
      rw [hstart, ← List.cons_append, List.append_assoc] at hrest
      rw [offsetsFrom, List.flatMap_cons]
      refine .cons ?_ hrest
      by_cases hempty : name.isEmpty = true
      · rw [if_pos hempty, String.isEmpty_iff.mp hempty]
        exact ⟨textAt?_zero _, Nat.succ_pos _⟩
      · rw [if_neg hempty, nameBytes, if_neg hempty]
        refine ⟨?_, ?_⟩
        · have hfound := Elf.textAt?_append hname (0 :: before) (names.flatMap nameBytes)
          simpa using hfound
        · simp
          omega

theorem textAt?_offsets {names : List String} (h : ∀ name ∈ names, 0 ∉ Bytes.ofString name) :
    List.Forall₂ (fun name offset => Elf.textAt? (bytes names) offset = some name ∧
      offset < (bytes names).length) names (offsets names) :=
  textAt?_offsetsFrom h []

end StringTable

end X64Asm
