import X64Asm.Listing.Build
import X64Asm.Proofs.Grammar

/-! # Tokens that are reported

A reader that fails reports one of the tokens that it is shown: one of its segment, or the token at
which the segment stops (`FailsAt`).  The report points at the stretch of that token, and so the report
of a whole token sequence points at one of its tokens (`Listing.pointsInto_ofTokens`).

All readers but one can only complain that a token is out of place; a data value can also be too
wide. -/

namespace X64Asm

/-- If the reader fails, it reports one of the tokens. -/
def FailsAt {α : Type} (Report : Token → Diagnostic → Prop) (ts : List Token)
    (x : Except Diagnostic α) : Prop :=
  ∀ d, x = .error d → ∃ t ∈ ts, Report t d

/-- If the reader fails, its report points at one of the tokens. -/
def PointsInto {α : Type} (ts : List Token) (x : Except Diagnostic α) : Prop :=
  ∀ d, x = .error d → ∃ t ∈ ts, d.span? = some t.span

namespace FailsAt

variable {α β : Type} {Report : Token → Diagnostic → Prop} {ts us : List Token}
  {x : Except Diagnostic α}

theorem ok (a : α) : FailsAt Report ts (.ok a : Except Diagnostic α) := by
  intro d h
  cases h

theorem error {t : Token} {d : Diagnostic} (ht : t ∈ ts) (hd : Report t d) :
    FailsAt Report ts (.error d : Except Diagnostic α) := by
  intro d' h
  cases h
  exact ⟨t, ht, hd⟩

theorem mono (h : FailsAt Report ts x) (hsubset : ts ⊆ us) : FailsAt Report us x := by
  intro d hd
  obtain ⟨t, ht, hreport⟩ := h d hd
  exact ⟨t, hsubset ht, hreport⟩

theorem bind {next : α → Except Diagnostic β} (h : FailsAt Report ts x)
    (hnext : ∀ a, FailsAt Report ts (next a)) : FailsAt Report ts (x >>= next) := by
  intro d hd
  rcases bind_eq_error.mp hd with hfirst | ⟨a, _, hsecond⟩
  · exact h d hfirst
  · exact hnext a d hsecond

theorem map (h : FailsAt Report ts x) (f : α → β) : FailsAt Report ts (x.map f) := by
  intro d hd
  exact h d (map_eq_error.mp hd)

theorem mapM {f : β → Except Diagnostic α} {bs : List β} (h : ∀ b ∈ bs, FailsAt Report ts (f b)) :
    FailsAt Report ts (bs.mapM f) := by
  induction bs with
  | nil => exact .ok []
  | cons b bs ih =>
      rw [List.forall_mem_cons] at h
      rw [List.mapM_cons]
      exact h.1.bind fun a => (ih h.2).bind fun as => .ok (a :: as)

end FailsAt

/-! ### Tokens that are shown -/

namespace Segment

/-- The tokens that a reader of the segment is shown. -/
def shown (s : Segment) : List Token := s.tokens ++ [s.stop]

variable {s seg : Segment} {separator : TokenKind}

theorem head_mem_shown (s : Segment) : s.head ∈ s.shown := by
  obtain ⟨tokens, stop⟩ := s
  cases tokens with
  | nil => exact List.mem_singleton_self stop
  | cons t ts => exact List.mem_cons_self

theorem shown_tail_subset (s : Segment) : s.tail.shown ⊆ s.shown := by
  obtain ⟨tokens, stop⟩ := s
  exact ((List.tail_sublist tokens).append_right [stop]).subset

/-- A part of a segment shows no more than the segment. -/
theorem shown_subset_of_mem_splitOn (h : seg ∈ s.splitOn separator) : seg.shown ⊆ s.shown := by
  obtain ⟨tokens, stop⟩ := s
  induction tokens generalizing seg with
  | nil =>
      obtain rfl := List.mem_singleton.mp h
      exact List.Subset.refl _
  | cons t ts ih =>
      have hrest : (⟨ts, stop⟩ : Segment).shown ⊆ (⟨t :: ts, stop⟩ : Segment).shown :=
        shown_tail_subset ⟨t :: ts, stop⟩
      by_cases ht : t.kind = separator
      · rw [splitOn_cons_separator ht] at h
        rcases List.mem_cons.mp h with rfl | h
        · exact List.cons_subset.mpr ⟨List.mem_cons_self, List.nil_subset _⟩
        · exact List.Subset.trans (ih h) hrest
      · obtain ⟨first, others, e⟩ :=
          List.exists_cons_of_ne_nil (splitOn_ne_nil separator ⟨ts, stop⟩)
        rw [splitOn_cons_other ht e] at h
        rw [e] at ih
        rcases List.mem_cons.mp h with rfl | h
        · have hfirst := List.Subset.trans (ih List.mem_cons_self) hrest
          exact List.cons_subset.mpr ⟨List.mem_cons_self, hfirst⟩
        · exact List.Subset.trans (ih (List.mem_cons_of_mem _ h)) hrest

theorem shown_subset_of_ofTokens? {tokens : List Token} (h : ofTokens? tokens = some s) :
    s.shown ⊆ tokens := by
  obtain ⟨last, hlast, rfl⟩ := Option.map_eq_some_iff.mp h
  refine List.append_subset.mpr ⟨(List.takeWhile_sublist _).subset, ?_⟩
  refine List.cons_subset.mpr ⟨?_, List.nil_subset _⟩
  show (tokens.find? _).getD last ∈ tokens
  cases hfind : tokens.find? (·.kind = .eof) with
  | none => exact List.mem_of_getLast? hlast
  | some eof => exact List.mem_of_find?_eq_some hfind

end Segment

/-! ### Readers of one token -/

section readers

variable {Report : Token → Diagnostic → Prop}
  (hcomplaint : ∀ t complaint, Report t (.complain complaint t.span))

namespace Token

variable {t : Token} {ts : List Token} (ht : t ∈ ts)

include hcomplaint ht

theorem failsAt_dataBytes (hwide : ∀ t value width, Report t (.dataOverflow value width t.span))
    (width : UInt8) : FailsAt Report ts (t.dataBytes width) := by
  unfold dataBytes
  split
  · exact .ok _
  · split
    · exact .ok _
    · exact .error ht (hwide t _ width)
  · exact .error ht (hcomplaint t _)

theorem failsAt_register : FailsAt Report ts t.register := by
  unfold register
  split
  · exact .ok _
  · exact .error ht (hcomplaint t _)

theorem failsAt_constant (value : Int) : FailsAt Report ts (t.constant value) := by
  unfold constant
  split
  · exact .ok _
  · exact .error ht (hcomplaint t _)

theorem failsAt_displacement (value : Int) : FailsAt Report ts (t.displacement value) := by
  unfold displacement
  split
  · exact .ok _
  · exact .error ht (hcomplaint t _)

theorem failsAt_address : FailsAt Report ts t.address := by
  unfold address
  split
  · exact (failsAt_register hcomplaint ht).map _
  · exact (failsAt_displacement hcomplaint ht _).map _
  · exact .error ht (hcomplaint t _)

theorem failsAt_mode : FailsAt Report ts t.mode := by
  unfold mode
  split
  · exact .ok _
  · exact .ok _
  · exact .ok _
  · exact .error ht (hcomplaint t _)

theorem failsAt_name : FailsAt Report ts t.name := by
  unfold name
  split
  · exact .ok _
  · exact .error ht (hcomplaint t _)

end Token

/-! ### Readers of segments -/

namespace Segment

variable {separator : TokenKind}

theorem failsAt_splitOn {α : Type} {read : Segment → Except Diagnostic α}
    (hread : ∀ seg, FailsAt Report seg.shown (read seg)) (s : Segment) :
    FailsAt Report s.shown ((s.splitOn separator).mapM read) :=
  .mapM fun seg hseg => (hread seg).mono (shown_subset_of_mem_splitOn hseg)

include hcomplaint

theorem failsAt_complete {α : Type} (s : Segment) (value : α) :
    FailsAt Report s.shown (s.complete value) := by
  obtain ⟨tokens, stop⟩ := s
  cases tokens with
  | nil => exact .ok value
  | cons t ts => exact .error List.mem_cons_self (hcomplaint t _)

theorem failsAt_only {α : Type} {f : Token → Except Diagnostic α}
    (hf : ∀ {t : Token} {ts : List Token}, t ∈ ts → FailsAt Report ts (f t)) (s : Segment) :
    FailsAt Report s.shown (s.only f) :=
  (hf s.head_mem_shown).bind fun value =>
    (failsAt_complete hcomplaint s.tail value).mono s.shown_tail_subset

theorem failsAt_operand (s : Segment) : FailsAt Report s.shown s.operand := by
  have hsecond : s.tail.head ∈ s.shown := s.shown_tail_subset s.tail.head_mem_shown
  have hthird : s.tail.tail.shown ⊆ s.shown :=
    List.Subset.trans s.tail.shown_tail_subset s.shown_tail_subset
  unfold operand
  split
  · exact (Token.failsAt_constant hcomplaint s.head_mem_shown _).bind fun c =>
      (failsAt_complete hcomplaint s.tail _).mono s.shown_tail_subset
  · exact (Token.failsAt_register hcomplaint s.head_mem_shown).bind fun r =>
      (failsAt_complete hcomplaint s.tail _).mono s.shown_tail_subset
  · refine (Token.failsAt_address hcomplaint hsecond).bind fun a => ?_
    split
    · exact (failsAt_complete hcomplaint s.tail.tail.tail _).mono
        (List.Subset.trans s.tail.tail.shown_tail_subset hthird)
    · exact .error (hthird s.tail.tail.head_mem_shown) (hcomplaint _ _)
  · exact .error s.head_mem_shown (hcomplaint _ _)

theorem failsAt_operands (s : Segment) : FailsAt Report s.shown s.operands := by
  unfold operands
  split
  · exact .ok []
  · exact failsAt_splitOn (failsAt_operand hcomplaint) s

variable (hwide : ∀ t value width, Report t (.dataOverflow value width t.span))

include hwide

theorem failsAt_statement (word : Token) (s : Segment) :
    FailsAt Report s.shown (statement word s) := by
  have hname : FailsAt Report s.shown (s.only Token.name) :=
    failsAt_only hcomplaint (Token.failsAt_name hcomplaint) s
  have hnames : FailsAt Report s.shown s.names :=
    failsAt_splitOn (failsAt_only hcomplaint (Token.failsAt_name hcomplaint)) s
  unfold statement
  split
  · exact (failsAt_only hcomplaint (Token.failsAt_mode hcomplaint) s).map _
  · exact hname.map _
  · exact hnames.map _
  · exact hnames.map _
  · next width _ =>
    refine (failsAt_splitOn (failsAt_only hcomplaint fun ht => ?_) s).map _
    exact Token.failsAt_dataBytes hcomplaint ht hwide width
  · exact (failsAt_operands hcomplaint s).map _

theorem failsAt_lineStatements (s : Segment) :
    FailsAt Report s.shown (lineStatements s.stop s.tokens) := by
  obtain ⟨tokens, stop⟩ := s
  induction tokens with
  | nil => exact .ok []
  | cons t ts ih =>
      have hrest : (⟨ts, stop⟩ : Segment).shown ⊆ (⟨t :: ts, stop⟩ : Segment).shown :=
        shown_tail_subset ⟨t :: ts, stop⟩
      show FailsAt Report _ (lineStatements stop (t :: ts))
      unfold lineStatements
      split
      · exact (ih.mono hrest).map _
      · exact ((failsAt_statement hcomplaint hwide t ⟨ts, stop⟩).mono hrest).map _
      · exact .error List.mem_cons_self (hcomplaint t _)

theorem failsAt_statements (s : Segment) : FailsAt Report s.shown s.statements :=
  (failsAt_splitOn (failsAt_lineStatements hcomplaint hwide) s).map _

end Segment

end readers

/-- A token sequence that is no listing is reported at one of its tokens. -/
theorem Listing.pointsInto_ofTokens (tokens : List Token) :
    PointsInto tokens (ofTokens tokens) := by
  refine FailsAt.map ?_ ofStatements
  unfold readStatements
  split
  · exact .ok []
  · next s hs =>
    have hfails : FailsAt (fun t d => d.span? = some t.span) s.shown s.statements :=
      Segment.failsAt_statements (fun _ _ => rfl) (fun _ _ _ => rfl) s
    exact hfails.mono (Segment.shown_subset_of_ofTokens? hs)

end X64Asm
