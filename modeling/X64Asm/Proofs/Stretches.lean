import X64Asm.Proofs.Mentions
import X64Asm.Proofs.SymbolRanks

/-! # The order in which names arrive

A declaration takes effect at once, a label when the section that it stands in is left.  So within
one stretch of a section the declared names arrive ahead of the labels, wherever they were written
(`arrivals_eq`).

Of each name only the first arrival counts.  The order of first arrivals is that of the first
mentions just if in every stretch the new names that are declared there come ahead of all other new
names (`eraseDups_arrivals_eq_iff`). -/

namespace X64Asm

/-! ### Stretches -/

/-- The stretches between the places where a section begins. -/
def stretches (marks : List Mark) : List (List Mark) := marks.splitOnP (· = .enter)

/-- The names that come up, in the order of the text. -/
def mentioned (marks : List Mark) : List String := marks.filterMap Mark.name?

/-- The names that are declared. -/
def declaredNames (marks : List Mark) : List String := (marks.filterMap Mark.declaration?).map (·.1)

/-- The names that are defined as labels. -/
def labelNames (marks : List Mark) : List String := marks.filterMap Mark.label?

section cons

variable (name : String) (kind : SymbolKind) (marks : List Mark)

@[simp] theorem declaredNames_label :
    declaredNames (.label name :: marks) = declaredNames marks := rfl

@[simp] theorem declaredNames_declared :
    declaredNames (.declared name kind :: marks) = name :: declaredNames marks := rfl

@[simp] theorem labelNames_label :
    labelNames (.label name :: marks) = name :: labelNames marks := rfl

@[simp] theorem labelNames_declared :
    labelNames (.declared name kind :: marks) = labelNames marks := rfl

@[simp] theorem mentioned_label :
    mentioned (.label name :: marks) = name :: mentioned marks := rfl

@[simp] theorem mentioned_declared :
    mentioned (.declared name kind :: marks) = name :: mentioned marks := rfl

end cons

/-- The names in the order in which they take effect, while those of the open section wait until it
is left. -/
def arrivals (waiting : List String) : List Mark → List String
  | [] => waiting
  | .label name :: marks => arrivals (waiting ++ [name]) marks
  | .declared name _ :: marks => name :: arrivals waiting marks
  | .enter :: marks => waiting ++ arrivals [] marks

/-- The names of one stretch in the order in which they take effect. -/
def stretchArrivals (marks : List Mark) : List String := declaredNames marks ++ labelNames marks

theorem stretches_cons_enter (marks : List Mark) :
    stretches (.enter :: marks) = [] :: stretches marks := by
  unfold stretches
  rw [List.splitOnP_cons_eq_if_modifyHead, if_pos (decide_eq_true rfl)]

theorem stretches_cons_other {mark : Mark} (h : mark ≠ .enter) {marks first : List Mark}
    {others : List (List Mark)} (hmarks : stretches marks = first :: others) :
    stretches (mark :: marks) = (mark :: first) :: others := by
  unfold stretches at hmarks ⊢
  rw [List.splitOnP_cons_eq_if_modifyHead, if_neg (by rwa [decide_eq_true_eq]), hmarks,
    List.modifyHead_cons]

theorem exists_stretches (marks : List Mark) :
    ∃ first others, stretches marks = first :: others :=
  List.exists_cons_of_ne_nil (List.splitOnP_ne_nil _ marks)

/-- What waits arrives after the declarations of the open stretch, before its labels. -/
theorem arrivals_of_stretches {marks first : List Mark} {others : List (List Mark)}
    (h : stretches marks = first :: others) (waiting : List String) :
    arrivals waiting marks =
      declaredNames first ++ waiting ++ labelNames first ++ others.flatMap stretchArrivals := by
  induction marks generalizing waiting first others with
  | nil =>
      cases h
      simp [arrivals, declaredNames, labelNames]
  | cons mark marks ih =>
      obtain ⟨first', others', h'⟩ := exists_stretches marks
      cases mark with
      | label name =>
          rw [stretches_cons_other (by simp) h'] at h
          cases h
          rw [arrivals, ih h']
          simp
      | declared name kind =>
          rw [stretches_cons_other (by simp) h'] at h
          cases h
          rw [arrivals, ih h']
          simp
      | enter =>
          rw [stretches_cons_enter, h'] at h
          cases h
          rw [arrivals, ih h']
          simp [declaredNames, labelNames, stretchArrivals]

theorem arrivals_eq (marks : List Mark) :
    arrivals [] marks = (stretches marks).flatMap stretchArrivals := by
  obtain ⟨first, others, h⟩ := exists_stretches marks
  rw [arrivals_of_stretches h, h, List.flatMap_cons, stretchArrivals, List.append_nil]

/-- No name is lost between stretches. -/
theorem mentioned_eq (marks : List Mark) :
    mentioned marks = (stretches marks).flatMap mentioned := by
  induction marks with
  | nil => rfl
  | cons mark marks ih =>
      obtain ⟨first, others, h⟩ := exists_stretches marks
      rw [h, List.flatMap_cons] at ih
      cases mark with
      | enter =>
          rw [stretches_cons_enter, h, List.flatMap_cons, List.flatMap_cons, ← ih]
          rfl
      | label name =>
          rw [stretches_cons_other (by simp) h, List.flatMap_cons]
          simp [ih]
      | declared name kind =>
          rw [stretches_cons_other (by simp) h, List.flatMap_cons]
          simp [ih]

/-! ### New names -/

/-- The names that are not known yet, each once. -/
def newNames (known names : List String) : List String := (names.removeAll known).eraseDups

theorem mem_removeAll {name : String} {names known : List String} :
    name ∈ names.removeAll known ↔ name ∈ names ∧ name ∉ known := by
  simp [List.removeAll, List.mem_filter]

theorem mem_newNames {name : String} {known names : List String} :
    name ∈ newNames known names ↔ name ∈ names ∧ name ∉ known := by
  rw [newNames, List.mem_eraseDups, mem_removeAll]

theorem removeAll_congr {known known' : List String} (h : ∀ name, name ∈ known ↔ name ∈ known')
    (names : List String) : names.removeAll known = names.removeAll known' := by
  unfold List.removeAll
  apply List.filter_congr
  intro name _
  simp [h name]

/-- Of two lists, the second brings in what neither the known names nor the first do. -/
theorem newNames_append (known names names' : List String) :
    newNames known (names ++ names') =
      newNames known names ++ newNames (known ++ names) names' := by
  have hremove : (names ++ names').removeAll known =
      names.removeAll known ++ names'.removeAll known := by
    simp [List.removeAll]
  have htwice : (names'.removeAll known).removeAll (names.removeAll known) =
      names'.removeAll (known ++ names) := by
    simp only [List.removeAll, List.filter_filter]
    apply List.filter_congr
    intro name _
    by_cases hknown : name ∈ known
    · simp [hknown]
    · simp [hknown]
  rw [newNames, hremove, List.eraseDups_append, htwice]
  rfl

theorem newNames_congr {known known' : List String} (h : ∀ name, name ∈ known ↔ name ∈ known')
    (names : List String) : newNames known names = newNames known' names := by
  rw [newNames, removeAll_congr h, newNames]

theorem nodup_newNames (known names : List String) : (newNames known names).Nodup :=
  nodup_eraseDups _

/-- To know more names is to take them out of the new ones. -/
theorem newNames_removeAll (known names names' : List String) :
    (newNames known names).removeAll names' = newNames (known ++ names') names := by
  unfold newNames List.removeAll
  rw [← eraseDups_filter, List.filter_filter]
  congr 1
  apply List.filter_congr
  intro name _
  simp [Bool.and_comm]

/-- The same names in another order are as many new ones. -/
theorem length_newNames {names names' : List String} (h : ∀ name, name ∈ names ↔ name ∈ names')
    (known : List String) : (newNames known names).length = (newNames known names').length := by
  apply List.Perm.length_eq
  rw [List.perm_ext_iff_of_nodup (nodup_newNames _ _) (nodup_newNames _ _)]
  intro name
  rw [mem_newNames, mem_newNames, h name]

/-! ### Orderly stretches -/

/-- In every stretch the new names that are declared there come, in order, ahead of all other new
names.  New are the names that are not known and that no earlier stretch has mentioned. -/
def Orderly (known : List String) : List (List Mark) → Prop
  | [] => True
  | stretch :: rest =>
    newNames known (declaredNames stretch) <+: newNames known (mentioned stretch) ∧
      Orderly (known ++ mentioned stretch) rest

instance Orderly.decidable : (known : List String) → (stretches : List (List Mark)) →
    Decidable (Orderly known stretches)
  | _, [] => inferInstanceAs (Decidable True)
  | known, stretch :: rest =>
    have := Orderly.decidable (known ++ mentioned stretch) rest
    inferInstanceAs (Decidable (_ ∧ _))

theorem mem_stretchArrivals {name : String} {stretch : List Mark} :
    name ∈ stretchArrivals stretch ↔ name ∈ mentioned stretch := by
  unfold stretchArrivals
  rw [List.mem_append]
  induction stretch with
  | nil => simp [declaredNames, labelNames, mentioned]
  | cons mark marks ih =>
      cases mark with
      | label other => rw [declaredNames_label, labelNames_label, mentioned_label, List.mem_cons,
          List.mem_cons, ← ih, or_left_comm]
      | declared other kind => rw [declaredNames_declared, labelNames_declared, mentioned_declared,
          List.mem_cons, List.mem_cons, ← ih, or_assoc]
      | enter => exact ih

/-- The names that are not declared are those of labels. -/
theorem removeAll_mentioned {stretch : List Mark} {known : List String}
    (h : ∀ name ∈ declaredNames stretch, name ∈ known) :
    (mentioned stretch).removeAll known = (labelNames stretch).removeAll known := by
  induction stretch with
  | nil => rfl
  | cons mark marks ih =>
      cases mark with
      | label name =>
          rw [mentioned_label, labelNames_label, List.cons_removeAll, List.cons_removeAll, ih h]
      | declared name kind =>
          rw [declaredNames_declared, List.forall_mem_cons] at h
          rw [mentioned_declared, labelNames_declared, List.cons_removeAll, ih h.2, if_neg]
          simp [h.1]
      | enter => exact ih h

/-- In one stretch, the new names arrive in the order in which they are mentioned just if the
declared ones are mentioned first. -/
theorem newNames_stretchArrivals_eq_iff (known : List String) (stretch : List Mark) :
    newNames known (stretchArrivals stretch) = newNames known (mentioned stretch) ↔
      newNames known (declaredNames stretch) <+: newNames known (mentioned stretch) := by
  rw [stretchArrivals, newNames_append]
  constructor
  · intro h
    rw [← h]
    exact List.prefix_append _ _
  · rintro ⟨rest, hrest⟩
    have hnodup := nodup_newNames known (mentioned stretch)
    rw [← hrest, List.nodup_append] at hnodup
    have hdeclared : (newNames known (declaredNames stretch)).removeAll (declaredNames stretch) =
        [] := by
      rw [List.removeAll, List.filter_eq_nil_iff]
      intro name hname
      simp [(mem_newNames.mp hname).1]
    have hothers : rest.removeAll (declaredNames stretch) = rest := by
      rw [List.removeAll, List.filter_eq_self]
      intro name hname
      have hnew : name ∈ newNames known (mentioned stretch) := by
        rw [← hrest]
        exact List.mem_append_right _ hname
      have hnot : name ∉ declaredNames stretch := by
        intro hmem
        have hfirst := mem_newNames.mpr ⟨hmem, (mem_newNames.mp hnew).2⟩
        exact hnodup.2.2 name hfirst name hname rfl
      simp [hnot]
    have hlabels : newNames (known ++ declaredNames stretch) (mentioned stretch) =
        newNames (known ++ declaredNames stretch) (labelNames stretch) := by
      rw [newNames, removeAll_mentioned, newNames]
      intro name hname
      exact List.mem_append_right _ hname
    have hsplit : rest = newNames (known ++ declaredNames stretch) (labelNames stretch) := by
      rw [← hlabels, ← newNames_removeAll, ← hrest, List.removeAll, List.filter_append]
      change _ = (newNames known (declaredNames stretch)).removeAll (declaredNames stretch) ++
        rest.removeAll (declaredNames stretch)
      rw [hdeclared, hothers, List.nil_append]
    rw [← hsplit, hrest]

/-- The new names of all stretches arrive in the order in which they are mentioned just if the
stretches are orderly. -/
theorem newNames_arrivals_eq_iff (known : List String) (stretches : List (List Mark)) :
    newNames known (stretches.flatMap stretchArrivals) =
      newNames known (stretches.flatMap mentioned) ↔ Orderly known stretches := by
  induction stretches generalizing known with
  | nil => exact ⟨fun _ => trivial, fun _ => rfl⟩
  | cons stretch rest ih =>
      have hmem : ∀ name, name ∈ stretchArrivals stretch ↔ name ∈ mentioned stretch :=
        fun name => mem_stretchArrivals
      have hknown : newNames (known ++ stretchArrivals stretch) (rest.flatMap stretchArrivals) =
          newNames (known ++ mentioned stretch) (rest.flatMap stretchArrivals) := by
        apply newNames_congr
        intro name
        rw [List.mem_append, List.mem_append, hmem name]
      rw [List.flatMap_cons, List.flatMap_cons, newNames_append, newNames_append, hknown, Orderly,
        ← ih, ← newNames_stretchArrivals_eq_iff]
      constructor
      · intro h
        exact List.append_inj h (length_newNames hmem known)
      · rintro ⟨hfirst, hrest⟩
        rw [hfirst, hrest]

theorem eraseDups_arrivals_eq_iff (marks : List Mark) :
    (arrivals [] marks).eraseDups = (mentioned marks).eraseDups ↔ Orderly [] (stretches marks) := by
  rw [arrivals_eq, mentioned_eq, ← newNames_arrivals_eq_iff, newNames, newNames, List.removeAll_nil,
    List.removeAll_nil]

end X64Asm
