import X64Asm.Proofs.SourcePlaces

/-! # Tokens tile the text

The tokens of a text stand one behind the other, each is written where its place says, and between them
there are only blanks and comments (`tiles_tokenize`).

What a piece takes from the text is said once (`Piece.takes_of_read`).  The pieces follow each other
without a gap, so the tokens are laid out from the beginning of the text to its end (`Laid`), and their
order and the gaps between them can be read off the layout. -/

namespace X64Asm

open Checked (stretch stretch_eq)

/-! ### What a piece takes -/

/-- How the text of a token of this kind is written in the source. -/
def TokenKind.Spelled (kind : TokenKind) (text written : String) : Prop :=
  match kind with
  | .stringLit => ∃ quote, (quote = '\x22' ∨ quote = '\x27') ∧
      written = String.singleton quote ++ text ++ String.singleton quote
  | .labelDef => written = text ++ ":"
  | _ => written = text

/-- The piece takes characters from the text, and others follow. -/
inductive Piece.Takes : Piece → List Char → List Char → Prop
  | blanks {n : Nat} {chars rest : List Char} (blank : ∀ c ∈ chars, isBlank c = true) :
      Takes ⟨none, "", n⟩ chars rest
  | comment {n : Nat} {chars rest : List Char} (line : '\n' ∉ chars)
      (stop : rest = [] ∨ rest.head? = some '\n') : Takes ⟨none, "", n⟩ (';' :: chars) rest
  | token {kind : TokenKind} {text : String} {n : Nat} {chars rest : List Char}
      (spelled : kind.Spelled text (String.ofList chars)) (within : kind ≠ .eof)
      (last : chars.getLast? ≠ some '-') : Takes ⟨some kind, text, n⟩ chars rest

theorem getLast?_ne_of_forall {p : Char → Bool} {x : Char} {chars : List Char} (hx : p x = false)
    (h : ∀ c ∈ chars, p c = true) : chars.getLast? ≠ some x := by
  intro hlast
  rw [h x (List.mem_of_getLast? hlast)] at hx
  cases hx

namespace Piece

variable {c : Char} {cs : List Char} {piece : Piece}

theorem takes_single {kind : TokenKind} (h : kind.Spelled (String.singleton c) (String.singleton c))
    (hkind : kind ≠ .eof) (hc : c ≠ '-') : (single kind c).Takes [c] cs :=
  .token h hkind fun hlast => hc (Option.some.inj hlast)

theorem takes_comment (cs : List Char) :
    Takes ⟨none, "", (cs.takeWhile (· ≠ '\n')).length⟩ (';' :: cs.takeWhile (· ≠ '\n'))
      (cs.dropWhile (· ≠ '\n')) :=
  .comment (fun hmem => absurd (List.mem_takeWhile_imp hmem) (by decide)) (dropWhile_line cs)

theorem takes_readString (hquote : isQuote c = true) (h : readString c cs = .ok piece) :
    piece.Takes (c :: cs.take piece.more) (cs.drop piece.more) := by
  obtain ⟨hclosed, rfl⟩ := readString_eq_ok_iff.mp h
  have hchars : cs.take ((cs.takeWhile fun d => d ≠ c && d ≠ '\n').length + 1) =
      (cs.takeWhile fun d => d ≠ c && d ≠ '\n') ++ [c] := by
    rw [List.take_add_one, take_takeWhile, hclosed]
    rfl
  rw [hchars]
  refine .token ⟨c, ?_, ?_⟩ nofun ?_
  · simpa [isQuote] using hquote
  · rw [← List.singleton_append, ← List.append_assoc, String.ofList_append, String.ofList_append]
    rfl
  · rw [← List.cons_append, List.getLast?_concat]
    rintro ⟨⟩
    exact absurd hquote (by decide)

theorem takes_readNumber (hdigit : c.isDigit = true) (h : readNumber c cs = .ok piece) :
    piece.Takes (c :: cs.take piece.more) (cs.drop piece.more) := by
  obtain ⟨n, hn, rfl⟩ := readNumber_eq_ok_iff.mp h
  obtain ⟨_, halnum, _⟩ := Numeral.facts_of_read hn
  have hone : 1 ≤ n.length := Numeral.length_pos_of_read hn hdigit
  have hchars : c :: cs.take (n.length - 1) = (c :: cs).take n.length := by
    rw [← List.take_succ_cons, Nat.sub_add_cancel hone]
  rw [hchars]
  exact .token rfl nofun (getLast?_ne_of_forall (by decide) halnum)

theorem takes_readNegative (hdigit : cs.head?.any Char.isDigit = true)
    (h : readNegative cs = .ok piece) :
    piece.Takes ('-' :: cs.take piece.more) (cs.drop piece.more) := by
  obtain ⟨n, hn, rfl⟩ := readNegative_eq_ok_iff.mp h
  obtain ⟨_, halnum, _⟩ := Numeral.facts_of_read hn
  have hone : 1 ≤ n.length := Numeral.length_pos_of_read hn hdigit
  obtain ⟨d, hhead, _⟩ := (Option.any_eq_true ..).mp hdigit
  obtain ⟨ds, rfl⟩ := List.head?_eq_some_iff.mp hhead
  refine .token rfl nofun ?_
  have hlast := getLast?_ne_of_forall (x := '-') (by decide) halnum
  rw [← Nat.sub_add_cancel hone, List.take_succ_cons] at hlast ⊢
  rw [List.getLast?_cons_cons]
  exact hlast

theorem takes_readName (hstart : isIdentStart c = true) :
    (readName c cs).Takes (c :: cs.take (readName c cs).more) (cs.drop (readName c cs).more) := by
  have hrest : ∀ d ∈ c :: cs.takeWhile isIdentRest, isIdentRest d = true := by
    rw [List.forall_mem_cons]
    exact ⟨isIdentRest_of_isIdentStart hstart, fun d hd => List.mem_takeWhile_imp hd⟩
  unfold readName
  dsimp only
  split
  · next hcolon =>
    have hchars : c :: cs.take ((cs.takeWhile isIdentRest).length + 1) =
        (c :: cs.takeWhile isIdentRest) ++ [':'] := by
      rw [List.take_add_one, take_takeWhile, hcolon]
      rfl
    rw [hchars]
    refine .token ?_ nofun ?_
    · exact String.ofList_append
    · rw [List.getLast?_concat]
      nofun
  · rw [take_takeWhile]
    exact .token rfl nofun (getLast?_ne_of_forall (by decide) hrest)

/-- What a piece takes from the text. -/
theorem takes_of_read (h : read c cs = .ok piece) :
    piece.Takes (c :: cs.take piece.more) (cs.drop piece.more) := by
  cases read_eq_ok_iff.mp h with
  | blanks first =>
      rw [take_takeWhile]
      refine .blanks ?_
      rw [List.forall_mem_cons]
      exact ⟨first, fun d hd => List.mem_takeWhile_imp hd⟩
  | comment first =>
      rw [take_takeWhile, drop_takeWhile, first]
      exact takes_comment cs
  | mark first =>
      simp only [markKinds, List.mem_cons, Prod.mk.injEq, List.not_mem_nil, or_false] at first
      rcases first with ⟨rfl, rfl⟩ | ⟨rfl, rfl⟩ | ⟨rfl, rfl⟩ | ⟨rfl, rfl⟩ <;>
        exact takes_single rfl (by decide) (by decide)
  | string first read => exact takes_readString first read
  | number first read => exact takes_readNumber first read
  | negative first digit read =>
      rw [first]
      exact takes_readNegative digit read
  | name first => exact takes_readName first

end Piece

/-! ### Gaps -/

/-- Blanks, then possibly a comment that runs to the end of the line or of the text.  The second list
follows. -/
inductive Skipped : List Char → List Char → Prop
  | nil {rest : List Char} : Skipped [] rest
  | blank {c : Char} {chars rest : List Char} (blank : c = ' ' ∨ c = '\t' ∨ c = '\r')
      (others : Skipped chars rest) : Skipped (c :: chars) rest
  | comment {chars rest : List Char} (line : '\n' ∉ chars)
      (stop : rest = [] ∨ rest.head? = some '\n') : Skipped (';' :: chars) rest

/-- There are only blanks and comments from one offset to another. -/
def Gap (source : String) (start stop : Nat) : Prop :=
  ∃ pre mid post, source.toList = pre ++ mid ++ post ∧ byteLength pre = start ∧
    byteLength pre + byteLength mid = stop ∧ Skipped mid post

theorem Skipped.append_left {chars mid post : List Char} (h : ∀ c ∈ chars, isBlank c = true)
    (hmid : Skipped mid post) : Skipped (chars ++ mid) post := by
  induction chars with
  | nil => exact hmid
  | cons c chars ih =>
      rw [List.forall_mem_cons] at h
      refine .blank ?_ (ih h.2)
      simpa [isBlank, or_assoc] using h.1

/-- Nothing is skipped at the end of a line. -/
theorem Skipped.eq_nil {mid post : List Char} (h : Skipped mid post)
    (hstop : mid ++ post = [] ∨ (mid ++ post).head? = some '\n') : mid = [] := by
  cases h with
  | nil => rfl
  | blank hblank _ => simp_all
  | comment _ _ => simp_all

namespace Piece.Takes

variable {piece : Piece} {kind : TokenKind} {chars rest : List Char}

theorem of_token (h : piece.Takes chars rest) (hkind : piece.kind = some kind) :
    kind.Spelled piece.text (String.ofList chars) ∧ kind ≠ .eof := by
  cases h with
  | blanks => cases hkind
  | comment => cases hkind
  | token spelled within =>
      cases hkind
      exact ⟨spelled, within⟩

theorem skipped {mid post : List Char} (h : piece.Takes chars (mid ++ post))
    (hkind : piece.kind = none) (hmid : Skipped mid post) : Skipped (chars ++ mid) post := by
  cases h with
  | blanks hblank => exact hmid.append_left hblank
  | comment hline hstop =>
      cases hmid.eq_nil hstop
      rw [List.append_nil]
      exact .comment hline hstop
  | token => cases hkind

end Piece.Takes

/-- Characters ahead of an offset are told by their number of bytes. -/
theorem append_inj_of_byteLength {pre pre' cs cs' : List Char} (h : pre ++ cs = pre' ++ cs')
    (hlen : byteLength pre = byteLength pre') : pre = pre' ∧ cs = cs' := by
  induction pre generalizing pre' with
  | nil =>
      cases pre' with
      | nil => exact ⟨rfl, h⟩
      | cons c pre' =>
          have hpos := c.utf8Size_pos
          simp only [byteLength] at hlen
          omega
  | cons c pre ih =>
      cases pre' with
      | nil =>
          have hpos := c.utf8Size_pos
          simp only [byteLength] at hlen
          omega
      | cons c' pre' =>
          obtain ⟨rfl, htail⟩ := List.cons_eq_cons.mp h
          obtain ⟨rfl, hrest⟩ := ih htail (Nat.add_left_cancel hlen)
          exact ⟨rfl, hrest⟩

section layout

variable {source : String} {pre chars rest : List Char} {start stop : Nat} {tokens : List Token}

theorem Gap.le (h : Gap source start stop) : start ≤ stop := by
  obtain ⟨pre, mid, _, _, rfl, rfl, _⟩ := h
  exact Nat.le_add_right _ _

theorem Gap.extend {piece : Piece} (h : Gap source (byteLength (pre ++ chars)) stop)
    (hsource : source.toList = pre ++ chars ++ rest) (htakes : piece.Takes chars rest)
    (hkind : piece.kind = none) : Gap source (byteLength pre) stop := by
  obtain ⟨pre', mid, post, hsource', hpre, rfl, hmid⟩ := h
  rw [hsource', List.append_assoc] at hsource
  obtain ⟨rfl, rfl⟩ := append_inj_of_byteLength hsource hpre
  refine ⟨pre, chars ++ mid, post, ?_, rfl, ?_, htakes.skipped hkind hmid⟩
  · rw [hsource', List.append_assoc pre]
  · rw [byteLength_append, byteLength_append, Nat.add_assoc]

/-! ### The layout -/

/-- The token is written where its place says, and its place is one of the text. -/
structure Token.Lies (source : String) (t : Token) : Prop where
  spelled : ∃ written, t.kind.Spelled t.text written ∧
    stretch source t.span.offset (t.span.offset + t.span.len) = pure written
  placed : t.span.Faithful source

/-- The tokens follow each other from an offset to the end of the text. -/
inductive Laid (source : String) : Nat → List Token → Prop
  | eof {start : Nat} {t : Token} (gap : Gap source start t.span.offset) (lies : t.Lies source)
      (kind : t.kind = .eof) (stop : t.span.offset = source.utf8ByteSize) : Laid source start [t]
  | cons {start : Nat} {t : Token} {tokens : List Token} (gap : Gap source start t.span.offset)
      (lies : t.Lies source) (kind : t.kind ≠ .eof) (pos : 0 < t.span.len)
      (others : Laid source (t.span.offset + t.span.len) tokens) : Laid source start (t :: tokens)

theorem Laid.extend {piece : Piece} (h : Laid source (byteLength (pre ++ chars)) tokens)
    (hsource : source.toList = pre ++ chars ++ rest) (htakes : piece.Takes chars rest)
    (hkind : piece.kind = none) : Laid source (byteLength pre) tokens := by
  cases h with
  | eof gap lies kind stop => exact .eof (gap.extend hsource htakes hkind) lies kind stop
  | cons gap lies kind pos others =>
      exact .cons (gap.extend hsource htakes hkind) lies kind pos others

theorem Gap.refl (h : source.toList = pre ++ rest) :
    Gap source (byteLength pre) (byteLength pre) :=
  ⟨pre, [], rest, by rw [h, List.append_nil], rfl, rfl, .nil⟩

theorem Token.Lies.of_append {kind : TokenKind} {text : String}
    (h : source.toList = pre ++ chars ++ rest) (hspelled : kind.Spelled text (String.ofList chars)) :
    Token.Lies source ⟨kind, text, (({} : Position).advance pre).span (byteLength chars)⟩ := by
  have hlen : byteLength chars ≤ byteLength (chars ++ rest) := by
    rw [byteLength_append]
    exact Nat.le_add_right _ _
  refine ⟨⟨_, hspelled, ?_⟩, .of_append (h.trans (List.append_assoc ..)) hlen⟩
  rw [Position.advance_start]
  exact stretch_eq h

/-- Reading lays the tokens out from the place where it begins. -/
theorem laid_scan {cs : List Char} (h : scan (({} : Position).advance pre) cs = .ok tokens)
    (hsource : source.toList = pre ++ cs) : Laid source (byteLength pre) tokens := by
  generalize hp : ({} : Position).advance pre = p at h
  fun_induction scan p cs generalizing pre tokens with
  | case1 p =>
      cases h
      subst hp
      have hparts : source.toList = pre ++ [] ++ [] := by rw [hsource, List.append_nil (pre ++ [])]
      have hlies : Token.Lies source ⟨.eof, "", (({} : Position).advance pre).span 0⟩ :=
        .of_append hparts rfl
      rw [Position.advance_start] at hlies ⊢
      refine .eof (.refl hsource) hlies rfl ?_
      rw [← byteLength_toList, hsource, List.append_nil]
      rfl
  | case2 => cases h
  | case3 => cases h
  | case4 p c cs piece hpiece chars others hothers =>
      rename_i ih
      cases h
      subst hp
      have hparts : source.toList = pre ++ chars ++ cs.drop piece.more := by
        rw [hsource, List.append_assoc, List.cons_append, List.take_append_drop]
      have hlaid := ih hparts (Position.advance_append ..) hothers
      have htakes := Piece.takes_of_read hpiece
      unfold Piece.token?
      cases hkind : piece.kind with
      | none => exact hlaid.extend hparts htakes hkind
      | some kind =>
          obtain ⟨hspelled, hwithin⟩ := htakes.of_token hkind
          have hlies := Token.Lies.of_append hparts hspelled
          have hpos : 0 < byteLength chars :=
            Nat.lt_of_lt_of_le c.utf8Size_pos (Nat.le_add_right _ _)
          rw [byteLength_append] at hlaid
          rw [Position.advance_start] at hlies ⊢
          exact .cons (.refl hsource) hlies hwithin hpos hlaid

/-! ### Order and gaps -/

namespace Laid

theorem head (h : Laid source start tokens) :
    ∃ t others, tokens = t :: others ∧ Gap source start t.span.offset := by
  cases h with
  | eof gap => exact ⟨_, _, rfl, gap⟩
  | cons gap => exact ⟨_, _, rfl, gap⟩

theorem le (h : Laid source start tokens) {t : Token} (ht : t ∈ tokens) :
    start ≤ t.span.offset := by
  induction h with
  | eof gap =>
      cases List.mem_singleton.mp ht
      exact gap.le
  | cons gap lies kind pos others ih =>
      rcases List.mem_cons.mp ht with rfl | ht
      · exact gap.le
      · have hgap := gap.le
        have hothers := ih ht
        omega

theorem pairwise (h : Laid source start tokens) : tokens.Pairwise fun t u =>
    t.span.offset < u.span.offset ∧ t.span.offset + t.span.len ≤ u.span.offset := by
  induction h with
  | eof => exact List.pairwise_singleton _ _
  | cons gap lies kind pos others ih =>
      refine .cons ?_ ih
      intro u hu
      have hle := others.le hu
      exact ⟨by omega, hle⟩

theorem isChain (h : Laid source start tokens) : tokens.IsChain fun t u =>
    Gap source (t.span.offset + t.span.len) u.span.offset := by
  induction h with
  | eof => exact .singleton _
  | cons gap lies kind pos others ih =>
      obtain ⟨u, us, rfl, hgap⟩ := others.head
      exact .cons_cons hgap ih

theorem ends (h : Laid source start tokens) : ∃ ahead eof, tokens = ahead ++ [eof] ∧
    eof.kind = .eof ∧ eof.span.offset = source.utf8ByteSize ∧ ∀ t ∈ ahead, t.kind ≠ .eof := by
  induction h with
  | eof gap lies kind stop => exact ⟨[], _, rfl, kind, stop, nofun⟩
  | cons gap lies kind pos others ih =>
      obtain ⟨ahead, eof, rfl, heof, hstop, hahead⟩ := ih
      exact ⟨_ :: ahead, eof, rfl, heof, hstop, List.forall_mem_cons.mpr ⟨kind, hahead⟩⟩

theorem lies (h : Laid source start tokens) : ∀ t ∈ tokens, t.Lies source := by
  induction h with
  | eof gap lies => exact List.forall_mem_singleton.mpr lies
  | cons gap lies kind pos others ih => exact List.forall_mem_cons.mpr ⟨lies, ih⟩

end Laid

/-- The tokens tile the text. -/
structure Tiles (source : String) (tokens : List Token) : Prop where
  /-- There is one end mark, which comes last and stands at the end of the text. -/
  ends : ∃ ahead eof, tokens = ahead ++ [eof] ∧ eof.kind = .eof ∧
    eof.span.offset = source.utf8ByteSize ∧ ∀ t ∈ ahead, t.kind ≠ .eof
  /-- They are in order and do not overlap. -/
  ordered : tokens.Pairwise fun t u =>
    t.span.offset < u.span.offset ∧ t.span.offset + t.span.len ≤ u.span.offset
  /-- Ahead of the first there are only blanks and comments. -/
  first : ∀ t ∈ tokens.head?, Gap source 0 t.span.offset
  /-- And so there are between one and the next. -/
  gaps : tokens.IsChain fun t u => Gap source (t.span.offset + t.span.len) u.span.offset
  lies : ∀ t ∈ tokens, t.Lies source

/-- The tokens of a text tile it.  Their lines and columns are words, and as they stand if the text
is shorter than the greatest word. -/
theorem tiles_tokenize (h : tokenize source = .ok tokens) : Tiles source tokens ∧
    (source.utf8ByteSize + 1 < UInt32.size → ∀ t ∈ tokens, t.span.Exact source) := by
  have hlaid : Laid source (byteLength []) tokens := laid_scan h rfl
  obtain ⟨t, others, rfl, hgap⟩ := hlaid.head
  refine ⟨⟨hlaid.ends, hlaid.pairwise, ?_, hlaid.isChain, hlaid.lies⟩, ?_⟩
  · rintro _ ⟨⟩
    exact hgap
  · intro hbytes u hu
    exact (hlaid.lies u hu).placed.exact hbytes

/-- A text with characters of several bytes, blanks of each sort, and a comment that ends with it. -/
theorem tiles_tokenize_mixedText : ∃ tokens,
    tokenize "a: db 'é', -0x1F ; ü\r\n\tret ;" = .ok tokens ∧
    tokens.map Token.span = [⟨1, 1, 0, 2⟩, ⟨1, 4, 3, 2⟩, ⟨1, 7, 6, 4⟩, ⟨1, 11, 10, 1⟩, ⟨1, 13, 12, 5⟩,
      ⟨1, 24, 23, 1⟩, ⟨2, 2, 25, 3⟩, ⟨2, 7, 30, 0⟩] ∧
    Tiles "a: db 'é', -0x1F ; ü\r\n\tret ;" tokens ∧
    ∀ t ∈ tokens, t.span.Exact "a: db 'é', -0x1F ; ü\r\n\tret ;" := by
  have hspans : (tokenize "a: db 'é', -0x1F ; ü\r\n\tret ;").map (List.map Token.span) =
      .ok [⟨1, 1, 0, 2⟩, ⟨1, 4, 3, 2⟩, ⟨1, 7, 6, 4⟩, ⟨1, 11, 10, 1⟩, ⟨1, 13, 12, 5⟩, ⟨1, 24, 23, 1⟩,
        ⟨2, 2, 25, 3⟩, ⟨2, 7, 30, 0⟩] := by
    decide +kernel
  obtain ⟨tokens, htokens, hmap⟩ := map_eq_ok.mp hspans
  obtain ⟨htiles, hexact⟩ := tiles_tokenize htokens
  exact ⟨tokens, htokens, hmap, htiles, hexact (by decide +kernel)⟩

/-- Behind a line of blanks as long as the greatest word the column is zero. -/
theorem column_behind_longLine : ∃ source eof, source.utf8ByteSize < UInt32.size ∧
    tokenize source = .ok [eof] ∧ eof.span.offset = source.utf8ByteSize ∧ eof.span.col = 0 ∧
    columnAt source eof.span.offset = UInt32.size := by
  refine ⟨blanks 4294967295, _, ?_, tokenize_blanks _, ?_, rfl, columnAt_blanks _⟩
  · rw [utf8ByteSize_blanks]
    decide
  · rw [utf8ByteSize_blanks]

end layout

end X64Asm
