import X64Asm.Proofs.TokenTiling

/-! # Layout does not matter

Blanks may be put in anywhere but inside a token, and a comment at any end of a line.  The text is
then read as tokens of the same kinds and texts, so it spells the same listing, or is refused for the
same cause (`Listing.parse_inserted`).

Whatever is put in stands between two pieces, or inside a run of blanks or a comment.  A token ahead
of it is read as before, since neither a blank nor a comment goes on with it
(`Piece.read_append_congr`); blanks ahead of it are read one at a time; and a comment ahead of it
swallows it, unless the line ends before. -/

namespace X64Asm

open List (Forall₂)

/-! ### Tokens that are read from anywhere -/

/-- From wherever reading begins, tokens are read that are alike to the given ones. -/
def ReadsAlike (cs : List Char) (ts : List Token) : Prop :=
  ∀ p : Position, ∃ us, scan p cs = .ok us ∧ Forall₂ Token.Alike us ts

namespace ReadsAlike

variable {p : Position} {c : Char} {cs mid post : List Char} {piece : Piece} {ts : List Token}

theorem of_scan (h : scan p cs = .ok ts) : ReadsAlike cs ts := scan_alike h

theorem blank (h : ReadsAlike cs ts) (hblank : isBlank c = true) : ReadsAlike (c :: cs) ts := by
  intro p
  rw [scan_blank hblank]
  exact h _

/-- The tokens behind a piece, and the token that the piece is. -/
theorem next (h : ReadsAlike (cs.drop piece.more) ts) (hread : Piece.read c cs = .ok piece)
    (q : Position) (len : Nat) : ReadsAlike (c :: cs) ((piece.token? q len).toList ++ ts) := by
  intro p
  obtain ⟨us, hus, halike⟩ := h (p.advance (c :: cs.take piece.more))
  refine ⟨_, scan_cons hread hus, List.rel_append ?_ halike⟩
  unfold Piece.token?
  cases piece.kind with
  | none => exact .nil
  | some kind => exact .cons ⟨rfl, rfl⟩ .nil

theorem comment (h : ReadsAlike (cs.dropWhile (· ≠ '\n')) ts) : ReadsAlike (';' :: cs) ts := by
  intro p
  rw [scan_comment]
  exact h _

/-- What is skipped does not change the tokens behind it. -/
theorem skipped (h : ReadsAlike post ts) (hmid : Skipped mid post) :
    ReadsAlike (mid ++ post) ts := by
  induction hmid with
  | nil => exact h
  | blank hblank _ ih => exact (ih h).blank (by simpa [isBlank, or_assoc] using hblank)
  | comment hline hstop =>
      refine ReadsAlike.comment ?_
      show ReadsAlike (List.dropWhile _ (_ ++ _)) ts
      rwa [dropWhile_append_line hline, dropWhile_eq_self hstop]

end ReadsAlike

/-! ### Something put in between -/

/-- The place is inside the token: behind its beginning and ahead of its end. -/
def Token.Covers (t : Token) (offset : Nat) : Prop :=
  t.span.offset < offset ∧ offset < t.span.offset + t.span.len

instance (t : Token) (offset : Nat) : Decidable (t.Covers offset) :=
  inferInstanceAs (Decidable (_ ∧ _))

section inserted

variable {p : Position} {c : Char} {cs pre mid post : List Char} {piece : Piece} {ts : List Token}

/-- What is skipped goes on with no token ahead of it. -/
theorem Skipped.apart (h : Skipped mid post) (hsome : mid ≠ []) : Apart (mid ++ post) := by
  cases h with
  | nil => exact absurd rfl hsome
  | blank hblank _ =>
      rintro d ⟨⟩
      rcases hblank with rfl | rfl | rfl <;> decide
  | comment _ _ =>
      rintro d ⟨⟩
      decide

theorem Skipped.newline_notMem (h : Skipped mid post) : '\n' ∉ mid := by
  induction h with
  | nil => exact List.not_mem_nil
  | blank hblank _ ih =>
      rw [List.mem_cons, not_or]
      refine ⟨?_, ih⟩
      rcases hblank with rfl | rfl | rfl <;> decide
  | comment hline _ =>
      rw [List.mem_cons, not_or]
      exact ⟨by decide, hline⟩

/-- A token that goes on behind a place covers it. -/
theorem covers_of_more (hread : Piece.read c (pre ++ post) = .ok piece)
    (hmore : pre.length < piece.more) {kind : TokenKind} (hkind : piece.kind = some kind) :
    ∃ t, piece.token? p (byteLength (c :: (pre ++ post).take piece.more)) = some t ∧
      t.Covers (p.offset + byteLength (c :: pre)) := by
  have hle := Piece.more_le_of_read hread
  rw [List.length_append] at hle
  obtain ⟨d, ds, hbehind⟩ := List.exists_cons_of_length_pos (l := post.take (piece.more - pre.length))
    (by rw [List.length_take]; omega)
  have hchars : (pre ++ post).take piece.more = pre ++ d :: ds := by
    rw [List.take_append, List.take_of_length_le (Nat.le_of_lt hmore), hbehind]
  have hc := c.utf8Size_pos
  have hd := d.utf8Size_pos
  refine ⟨_, by rw [Piece.token?, hkind]; rfl, ?_⟩
  rw [hchars]
  simp only [Token.Covers, Position.span, byteLength, byteLength_append]
  omega

/-- Put in behind the characters `pre`, at a place that no token covers, `mid` does not change the
tokens. -/
def Inserts (mid post pre : List Char) : Prop :=
  ∀ (p : Position) (ts : List Token), scan p (pre ++ post) = .ok ts →
    (∀ t ∈ ts, ¬ t.Covers (p.offset + byteLength pre)) → ReadsAlike (pre ++ (mid ++ post)) ts

namespace Inserts

theorem start (hmid : Skipped mid post) : Inserts mid post [] := by
  intro p ts h _
  exact (ReadsAlike.of_scan h).skipped hmid

theorem blank (h : Inserts mid post pre) (hblank : isBlank c = true) :
    Inserts mid post (c :: pre) := by
  intro p ts hscan hplace
  rw [List.cons_append, scan_blank hblank] at hscan
  refine (h _ ts hscan fun t ht => ?_).blank hblank
  rw [Position.offset_step, Nat.add_assoc]
  exact hplace t ht

/-- A comment swallows what is put in, if the line does not end before. -/
theorem swallowed (hpre : '\n' ∉ pre) (hmid : '\n' ∉ mid) : Inserts mid post (';' :: pre) := by
  intro p ts hscan _
  rw [List.cons_append, scan_comment, dropWhile_append_line hpre] at hscan
  rw [List.cons_append]
  refine ReadsAlike.comment ?_
  rw [dropWhile_append_line hpre, dropWhile_append_line hmid]
  exact .of_scan hscan

/-- A comment whose line ends before does not reach what is put in. -/
theorem comment (h : Inserts mid post (pre.dropWhile (· ≠ '\n'))) (hpre : '\n' ∈ pre) :
    Inserts mid post (';' :: pre) := by
  have hrest : ∀ rest : List Char, (pre ++ rest).dropWhile (· ≠ '\n') =
      pre.dropWhile (· ≠ '\n') ++ rest := by
    intro rest
    rw [List.dropWhile_append, if_neg]
    simpa using hpre
  intro p ts hscan hplace
  rw [List.cons_append, scan_comment, hrest] at hscan
  rw [List.cons_append]
  refine ReadsAlike.comment ?_
  rw [hrest]
  refine h _ ts hscan fun t ht => ?_
  have hline : (pre ++ post).takeWhile (· ≠ '\n') ++ (pre.dropWhile (· ≠ '\n') ++ post) =
      pre ++ post := by
    rw [← hrest, List.takeWhile_append_dropWhile]
  have hlength := congrArg byteLength hline
  have hoffset : (p.advance (';' :: (pre ++ post).takeWhile (· ≠ '\n'))).offset +
      byteLength (pre.dropWhile (· ≠ '\n')) = p.offset + byteLength (';' :: pre) := by
    simp only [Position.offset_advance, byteLength, byteLength_append] at hlength ⊢
    omega
  rw [hoffset]
  exact hplace t ht

/-- A token that ends before is read as it was. -/
theorem token (h : ∀ k, Inserts mid post (pre.drop k)) (hmid : Apart (mid ++ post))
    (hblank : isBlank c ≠ true) (hcomment : c ≠ ';') : Inserts mid post (c :: pre) := by
  intro p ts hscan hplace
  rw [List.cons_append] at hscan ⊢
  obtain ⟨piece, us, hread, hus, rfl⟩ := exists_piece_of_scan hscan
  obtain ⟨kind, hkind⟩ := Piece.exists_kind_of_read hread hblank hcomment
  by_cases hmore : piece.more ≤ pre.length
  · have hread' : Piece.read c (pre ++ (mid ++ post)) = .ok piece :=
      Piece.read_append_congr hread hmore hmid (by simp [hkind])
    have hoffset : (p.advance (c :: pre.take piece.more)).offset +
        byteLength (pre.drop piece.more) = p.offset + byteLength (c :: pre) := by
      rw [Position.offset_advance, Nat.add_assoc, ← byteLength_append, List.cons_append,
        List.take_append_drop]
    rw [List.drop_append_of_le_length hmore, List.take_append_of_le_length hmore] at hus
    have hbehind : ReadsAlike ((pre ++ (mid ++ post)).drop piece.more) us := by
      rw [List.drop_append_of_le_length hmore]
      refine h piece.more _ us hus fun t ht => ?_
      rw [hoffset]
      exact hplace t (List.mem_append_right _ ht)
    exact hbehind.next hread' p _
  · -- a token that does not end before covers the place
    obtain ⟨t, ht, hcovers⟩ := covers_of_more hread (Nat.lt_of_not_le hmore) hkind
    exact absurd hcovers (hplace t (List.mem_append_left _ (by simp [ht])))

end Inserts

theorem inserts (hmid : Skipped mid post) (hsome : mid ≠ []) (pre : List Char) :
    Inserts mid post pre := by
  induction hn : pre.length using Nat.strongRecOn generalizing pre with
  | _ n ih =>
      cases pre with
      | nil => exact .start hmid
      | cons c pre =>
          rw [List.length_cons] at hn
          by_cases hblank : isBlank c = true
          · exact (ih pre.length (by omega) pre rfl).blank hblank
          by_cases hcomment : c = ';'
          · subst hcomment
            by_cases hline : '\n' ∈ pre
            · have hle := (List.dropWhile_suffix (l := pre) (fun d => decide (d ≠ '\n'))).length_le
              exact (ih _ (by omega) _ rfl).comment hline
            · exact .swallowed hline hmid.newline_notMem
          · refine .token (fun k => ih _ ?_ _ rfl) (hmid.apart hsome) hblank hcomment
            rw [List.length_drop]
            omega

end inserted

/-- Tokens are read as before if something that is skipped is put in, at a place that none of them
covers. -/
theorem tokenize_inserted {before after inserted : String} {tokens : List Token}
    (h : tokenize (before ++ after) = .ok tokens)
    (hplace : ∀ t ∈ tokens, ¬ t.Covers before.utf8ByteSize)
    (hinserted : Skipped inserted.toList after.toList) :
    ∃ moved, tokenize (before ++ inserted ++ after) = .ok moved ∧
      Forall₂ Token.Alike moved tokens := by
  have hscan : scan {} (before.toList ++ after.toList) = .ok tokens := by
    rw [← String.toList_append]
    exact h
  have hall : ReadsAlike (before.toList ++ (inserted.toList ++ after.toList)) tokens := by
    by_cases hsome : inserted.toList = []
    · rw [hsome]
      exact .of_scan hscan
    · refine inserts hinserted hsome before.toList {} tokens hscan fun t ht => ?_
      rw [byteLength_toList, Nat.zero_add]
      exact hplace t ht
  rw [tokenize, String.toList_append, String.toList_append, List.append_assoc]
  exact hall {}

/-- Wherever no token is cut, blanks may be put in, and a comment at the end of a line.  The tokens
keep their kinds and texts, so the text spells the same listing, or is refused with a report that
differs at most in its place. -/
theorem Listing.parse_inserted {before after inserted : String} {tokens : List Token}
    (h : tokenize (before ++ after) = .ok tokens)
    (hplace : ∀ t ∈ tokens, ¬ t.Covers before.utf8ByteSize)
    (hinserted : Skipped inserted.toList after.toList) :
    (∃ moved, tokenize (before ++ inserted ++ after) = .ok moved ∧
      Forall₂ Token.Alike moved tokens) ∧
    Agree Eq Diagnostic.SameElsewhere (parse (before ++ inserted ++ after))
      (parse (before ++ after)) := by
  obtain ⟨moved, hmoved, halike⟩ := tokenize_inserted h hplace hinserted
  refine ⟨⟨moved, hmoved, halike⟩, ?_⟩
  have hparse : parse (before ++ after) = ofTokens tokens := by rw [parse, h]; rfl
  have hparse' : parse (before ++ inserted ++ after) = ofTokens moved := by rw [parse, hmoved]; rfl
  rw [hparse, hparse']
  exact agree_of_alike halike

/-- A comment is put in behind a string that holds the mark of one.  The second line breaks off, and
the report of this moves with it. -/
theorem Listing.parse_inserted_brokenOff : ∃ tokens,
    tokenize ("dw -0Fh,'é;'" ++ "\nmov al ,") = .ok tokens ∧
    (∀ t ∈ tokens, ¬ t.Covers "dw -0Fh,'é;'".utf8ByteSize) ∧
    Skipped "\r; ü,".toList "\nmov al ,".toList ∧
    parse ("dw -0Fh,'é;'" ++ "\nmov al ,") =
      .error (.complain (.expected .operand "end of input") ⟨2, 9, 22, 0⟩) ∧
    (∃ moved, tokenize ("dw -0Fh,'é;'" ++ "\r; ü," ++ "\nmov al ,") = .ok moved ∧
      Forall₂ Token.Alike moved tokens) ∧
    Agree Eq Diagnostic.SameElsewhere (parse ("dw -0Fh,'é;'" ++ "\r; ü," ++ "\nmov al ,"))
      (parse ("dw -0Fh,'é;'" ++ "\nmov al ,")) := by
  have hall : (tokenize ("dw -0Fh,'é;'" ++ "\nmov al ,")).map (fun tokens =>
      tokens.all fun t => !decide (t.Covers "dw -0Fh,'é;'".utf8ByteSize)) = .ok true := by
    decide +kernel
  obtain ⟨tokens, htokens, hplaces⟩ := map_eq_ok.mp hall
  have hplace : ∀ t ∈ tokens, ¬ t.Covers "dw -0Fh,'é;'".utf8ByteSize := by simpa using hplaces
  have hinserted : Skipped "\r; ü,".toList "\nmov al ,".toList :=
    .blank (.inr (.inr rfl)) (.comment (by decide) (.inr rfl))
  exact ⟨tokens, htokens, hplace, hinserted, by decide +kernel,
    parse_inserted htokens hplace hinserted⟩

end X64Asm
