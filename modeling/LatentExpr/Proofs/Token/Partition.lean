import LatentExpr.Proofs.Token.Filler
import LatentExpr.Proofs.Token.Tracked
import Mathlib

/-!
Tokens in their source. The tokens of a source that is read to its end follow each other with nothing but
fillers between them, before the first and behind the last (`tokenize_partitioned`): every byte belongs to
exactly one token or filler. The spans are those of the bytes, a name takes every byte that can continue it,
and a symbol is the longest one of the table.
-/
namespace LatentExpr

open Lexer Lexeme

/-! ### Bytes of a source -/

namespace Matcher

theorem bytes_append (a b : List Char) : bytes (a ++ b) = bytes a ++ bytes b := List.flatMap_append

theorem length_bytes (text : List Char) : (bytes text).length = byteCount text := by
  induction text with
  | nil => rfl
  | cons c text ih => rw [bytes_cons, List.length_append, String.length_utf8EncodeChar, ih, byteCount_cons]

/-- The bytes of a text from one offset up to another. -/
def slice (text : List Char) (start stop : Nat) : List UInt8 := ((bytes text).take stop).drop start

theorem slice_append (before inner after : List Char) :
    slice (before ++ (inner ++ after)) (byteCount before) (byteCount before + byteCount inner) =
      bytes inner := by
  rw [slice, ← List.append_assoc, bytes_append, bytes_append, ← length_bytes, ← length_bytes,
    ← List.length_append, List.take_left, List.drop_left]

theorem drop_bytes_append (before after : List Char) :
    (bytes (before ++ after)).drop (byteCount before) = bytes after := by
  rw [bytes_append, ← length_bytes, List.drop_left]

end Matcher

theorem Lexer.byteCount_pos {text : List Char} (h : text ≠ []) : 0 < byteCount text := by
  obtain ⟨c, more, rfl⟩ := List.exists_cons_of_ne_nil h
  have := c.utf8Size_pos
  rw [byteCount_cons]
  omega

/-- Of two beginnings of a text, the one with fewer bytes is a beginning of the other one. -/
theorem Lexer.prefix_of_byteCount_le {source a b : List Char} (ha : a <+: source) (hb : b <+: source)
    (h : byteCount a ≤ byteCount b) : a <+: b := by
  rcases Nat.le_total a.length b.length with hle | hle
  · exact List.prefix_of_prefix_length_le ha hb hle
  · obtain ⟨more, rfl⟩ := List.prefix_of_prefix_length_le hb ha hle
    cases more with
    | nil => rw [List.append_nil]
    | cons c more =>
      have hpos : 0 < byteCount (c :: more) := byteCount_pos (List.cons_ne_nil _ _)
      rw [byteCount_append] at h
      omega

theorem Lexer.byteCount_toList (source : String) : byteCount source.toList = source.utf8ByteSize := by
  rw [← Matcher.length_bytes_toList, Matcher.length_bytes]

namespace Text

theorem toNat_lt_of_isIdentContinue {c : Char} (h : isIdentContinue c = true) : c.toNat < 128 := by
  simp only [isIdentContinue, isIdentStart, Char.isAlpha, Char.isUpper, Char.isLower, Char.isDigit,
    Bool.or_eq_true, Bool.and_eq_true, decide_eq_true_eq, beq_iff_eq, UInt32.le_iff_toNat_le] at h
  rcases h with (((⟨-, h⟩ | ⟨-, h⟩) | rfl) | rfl) | ⟨-, h⟩
  · exact Nat.lt_of_le_of_lt h (by decide)
  · exact Nat.lt_of_le_of_lt h (by decide)
  · decide
  · decide
  · exact Nat.lt_of_le_of_lt h (by decide)

/-- A character that continues no name starts with no byte that does. -/
theorem isIdentContinue_firstByte {c : Char} {b : UInt8} (hc : isIdentContinue c = false)
    (hb : (String.utf8EncodeChar c).head? = some b) : isIdentContinue (Char.ofUInt8 b) = false := by
  rw [Bool.eq_false_iff]
  intro h
  have hascii : b < 128 := toNat_lt_of_isIdentContinue h
  have hsame : c = Char.ofUInt8 b := Char.toNat_inj.1 (encode_of_ascii hb hascii).2
  rw [hsame, h] at hc
  cases hc

end Text

/-! ### Tokens and the fillers between them -/

/-- The ranges before each of the tokens that follow an offset. -/
def gaps : Nat → List Token → List (Nat × Nat)
  | _, [] => []
  | offset, t :: ts => (offset, t.span.start) :: gaps t.span.stop ts

/-- Where the last of the tokens stops that follow an offset. -/
def lastStop : Nat → List Token → Nat
  | offset, [] => offset
  | _, t :: ts => lastStop t.span.stop ts

/-- A source that is made up of tokens and fillers. -/
structure Partitioned (m : Matcher) (source : List Char) (tokens : List Token) : Prop where
  nonempty : ∀ t ∈ tokens, t.span.start < t.span.stop
  ordered : tokens.Pairwise fun a b => a.span.stop ≤ b.span.start
  text : ∀ t ∈ tokens, Matcher.slice source t.span.start t.span.stop = Matcher.bytes t.text.toList
  between : ∀ gap ∈ gaps 0 tokens, gap.1 ≤ gap.2 ∧
    ∃ filler, Filler filler ∧ Matcher.slice source gap.1 gap.2 = Matcher.bytes filler
  behind : lastStop 0 tokens ≤ byteCount source ∧
    ∃ filler, LastFiller filler ∧
      Matcher.slice source (lastStop 0 tokens) (byteCount source) = Matcher.bytes filler
  /-- The byte behind a name continues no name. -/
  names : ∀ t ∈ tokens, t.kind = .identifier →
    ∀ b ∈ ((Matcher.bytes source).drop t.span.stop).head?, Text.isIdentContinue (Char.ofUInt8 b) = false
  /-- A symbol is the longest one that begins the rest of the source. -/
  symbols : ∀ t ∈ tokens, t.kind = .symbol →
    Matcher.Begins m.symbols ((Matcher.bytes source).drop t.span.start) t.text ∧
      ∀ s, Matcher.Begins m.symbols ((Matcher.bytes source).drop t.span.start) s →
        s.utf8ByteSize ≤ t.text.utf8ByteSize

/-- A token in a source, behind one part of it and before another: its span is that of its bytes, and it is
the lexeme there. -/
structure Token.Between (m : Matcher) (source before after : List Char) (t : Token) : Prop where
  source : source = before ++ (t.text.toList ++ after)
  lexeme : lexeme? m (t.text.toList ++ after) = some (t.piece, after)
  span : t.span = .between (byteCount before) (byteCount before + byteCount t.text.toList)

/-- What a lexer reads behind one part of a source: tokens with a filler before each, and a filler. -/
inductive LaidOut (m : Matcher) (source : List Char) : List Char → List Token → Prop where
  | last {read text : List Char} (hsource : source = read ++ text) (h : LastFiller text) :
    LaidOut m source read []
  | token {read gap after : List Char} {t : Token} {ts : List Token} (hgap : Filler gap)
    (ht : t.Between m source (read ++ gap) after)
    (h : LaidOut m source (read ++ gap ++ t.text.toList) ts) : LaidOut m source read (t :: ts)

section
variable {m : Matcher} {symbols : List String} {source before after read : List Char} {t : Token} {ts : List Token}

namespace Token.Between
variable (h : t.Between (.ofSymbols symbols) source before after)
include h

theorem text_ne_nil : t.text.toList ≠ [] := (lexeme?_append h.lexeme).2

theorem drop_bytes : (Matcher.bytes source).drop (byteCount before) = Matcher.bytes (t.text.toList ++ after) := by
  rw [h.source, Matcher.drop_bytes_append]

theorem drop_bytes_after :
    (Matcher.bytes source).drop (byteCount before + byteCount t.text.toList) = Matcher.bytes after := by
  rw [h.source, ← List.append_assoc, ← byteCount_append, Matcher.drop_bytes_append]

/-- The byte behind a name continues no name. -/
theorem not_continued (hkind : t.kind = .identifier) :
    ∀ b ∈ (Matcher.bytes after).head?, Text.isIdentContinue (Char.ofUInt8 b) = false := by
  have hpiece : t.piece = .identifier t.text := by rw [Token.piece, hkind]; rfl
  obtain ⟨c, more, hstart, -, hname⟩ := identifier_of_lexeme? (hpiece ▸ h.lexeme)
  rw [hstart] at hname
  have hafter : more.dropWhile Text.isIdentContinue = after := congrArg Prod.snd hname
  intro b hb
  cases after with
  | nil => cases hb
  | cons d after =>
    have hd := List.head?_dropWhile_not Text.isIdentContinue more
    rw [hafter] at hd
    rw [Matcher.bytes_cons, List.head?_append_of_ne_nil _ String.utf8EncodeChar_ne_nil] at hb
    exact Text.isIdentContinue_firstByte (by simpa using hd) hb

theorem longest (hkind : t.kind = .symbol) :
    Matcher.Begins (Matcher.ofSymbols symbols).symbols (Matcher.bytes (t.text.toList ++ after)) t.text ∧
      ∀ s, Matcher.Begins (Matcher.ofSymbols symbols).symbols (Matcher.bytes (t.text.toList ++ after)) s →
        s.utf8ByteSize ≤ t.text.utf8ByteSize := by
  have hpiece : t.piece = .symbol t.text := by rw [Token.piece, hkind]; rfl
  obtain ⟨hlong, -⟩ := longestIn?_of_lexeme? (hpiece ▸ h.lexeme)
  rcases Matcher.longestIn?_spec symbols (t.text.toList ++ after) with
    ⟨found, hmem, hpre, heq, hmax⟩ | ⟨hnone, -⟩
  · obtain rfl : found = t.text := Option.some.inj (heq.symm.trans hlong)
    have hne : t.text ≠ "" := mt String.toList_eq_nil_iff.2 h.text_ne_nil
    refine ⟨⟨hmem, hne, Matcher.bytes_prefix_iff.2 hpre⟩, fun s hs => ?_⟩
    have hle := (Matcher.bytes_prefix_iff.2 (hmax s hs.1 (Matcher.bytes_prefix_iff.1 hs.2.2))).length_le
    rwa [Matcher.length_bytes_toList, Matcher.length_bytes_toList] at hle
  · rw [hnone] at hlong
    cases hlong

variable (hsize : byteCount source ≤ Span.limit)
include hsize

theorem span_eq : t.span = ⟨byteCount before, byteCount before + byteCount t.text.toList⟩ := by
  have hfits : byteCount before + byteCount t.text.toList ≤ Span.limit := by
    rw [h.source, byteCount_append, byteCount_append] at hsize
    omega
  rw [h.span, Span.between, Nat.min_eq_left hfits, Nat.min_eq_left (by omega)]

theorem start_lt_stop : t.span.start < t.span.stop := by
  rw [h.span_eq hsize]
  exact Nat.lt_add_of_pos_right (byteCount_pos h.text_ne_nil)

theorem slice_span : Matcher.slice source t.span.start t.span.stop = Matcher.bytes t.text.toList := by
  rw [h.span_eq hsize, h.source]
  exact Matcher.slice_append ..

end Token.Between

/-! ### A whole source -/

namespace LaidOut

/-- Every token of a source has its place, behind what was read before. -/
theorem between (h : LaidOut m source read ts) : ∀ t ∈ ts, ∃ before after,
    t.Between m source before after ∧ byteCount read ≤ byteCount before := by
  induction h with
  | last => exact nofun
  | @token read gap after t ts _ ht _ ih =>
    intro u hu
    rcases List.mem_cons.1 hu with rfl | hu
    · exact ⟨_, _, ht, by rw [byteCount_append]; omega⟩
    · obtain ⟨before, behind, hbetween, hle⟩ := ih u hu
      refine ⟨before, behind, hbetween, ?_⟩
      rw [byteCount_append, byteCount_append] at hle
      omega

variable (hsize : byteCount source ≤ Span.limit)
include hsize

theorem pairwise (h : LaidOut (.ofSymbols symbols) source read ts) :
    ts.Pairwise fun a b => a.span.stop ≤ b.span.start := by
  induction h with
  | last => exact .nil
  | @token read gap after t ts _ ht h ih =>
    refine .cons (fun u hu => ?_) ih
    obtain ⟨before, behind, hbetween, hle⟩ := h.between u hu
    rw [ht.span_eq hsize, hbetween.span_eq hsize, ← byteCount_append]
    exact hle

theorem gaps (h : LaidOut (.ofSymbols symbols) source read ts) :
    ∀ gap ∈ gaps (byteCount read) ts, gap.1 ≤ gap.2 ∧
      ∃ filler, Filler filler ∧ Matcher.slice source gap.1 gap.2 = Matcher.bytes filler := by
  induction h with
  | last => exact nofun
  | @token read gap after t ts hgap ht _ ih =>
    rw [byteCount_append] at ih
    rw [LatentExpr.gaps, ht.span_eq hsize]
    refine List.forall_mem_cons.2 ⟨⟨?_, gap, hgap, ?_⟩, ih⟩
    · rw [byteCount_append]
      exact Nat.le_add_right _ _
    · rw [ht.source, byteCount_append, List.append_assoc]
      exact Matcher.slice_append ..

theorem behind (h : LaidOut (.ofSymbols symbols) source read ts) :
    lastStop (byteCount read) ts ≤ byteCount source ∧ ∃ filler, LastFiller filler ∧
      Matcher.slice source (lastStop (byteCount read) ts) (byteCount source) = Matcher.bytes filler := by
  induction h with
  | @last read text hsource h =>
    rw [lastStop, hsource, byteCount_append]
    refine ⟨Nat.le_add_right _ _, text, h, ?_⟩
    have := Matcher.slice_append read text []
    rwa [List.append_nil] at this
  | @token read gap after t ts _ ht _ ih =>
    rw [byteCount_append] at ih
    rwa [lastStop, ht.span_eq hsize]

/-- What is laid out partitions the source. -/
theorem partitioned (h : LaidOut (.ofSymbols symbols) source [] ts) :
    Partitioned (.ofSymbols symbols) source ts where
  nonempty t ht := by
    obtain ⟨before, after, hbetween, -⟩ := h.between t ht
    exact hbetween.start_lt_stop hsize
  ordered := h.pairwise hsize
  text t ht := by
    obtain ⟨before, after, hbetween, -⟩ := h.between t ht
    exact hbetween.slice_span hsize
  between := h.gaps hsize
  behind := h.behind hsize
  names t ht hkind := by
    obtain ⟨before, after, hbetween, -⟩ := h.between t ht
    rw [hbetween.span_eq hsize, hbetween.drop_bytes_after]
    exact hbetween.not_continued hkind
  symbols t ht hkind := by
    obtain ⟨before, after, hbetween, -⟩ := h.between t ht
    rw [hbetween.span_eq hsize, hbetween.drop_bytes]
    exact hbetween.longest hkind

end LaidOut

end

/-! ### Reading -/

namespace Lexer
variable {symbols : SymbolTable} {read text : List Char} {l l' : Lexer} {t : Token}

/-- A lexer has read one part of a source and stands before the rest. -/
structure Behind (l : Lexer) (symbols : SymbolTable) (read text : List Char) : Prop
    extends l.At symbols text where
  position : l.position = byteCount read

/-- Skipping moves on by what is skipped. -/
theorem position_skip (l : Lexer) :
    (skip l).2.position + byteCount (skip l).2.rest = l.position + byteCount l.rest := by
  fun_induction skip l with
  | case1 | case3 | case6 => rfl
  | case2 l text hr _ line ih =>
    have happend : byteCount line.1 + byteCount line.2 = byteCount text := by
      rw [← byteCount_append, Comment.splitLine_append]
    rw [ih, hr]
    simp only [past, byteCount_cons]
    omega
  | case4 l text hr body rest hs _ block mark ih =>
    rw [ih, hr, Comment.eq_append_of_splitClose? hs]
    have hstop : block.stop = l.position + 2 + byteCount body + 1 + 1 := rfl
    have hslash : '/'.utf8Size = 1 := rfl
    have hstar : '*'.utf8Size = 1 := rfl
    simp only [byteCount_cons, byteCount_append]
    omega
  | case5 l c rest _ _ hr _ ih =>
    rw [ih, hr, byteCount_cons, ← Nat.add_assoc]
    rfl

/-- What is skipped before a token is a filler. -/
theorem Behind.skip (h : l.Behind symbols read text) {start : List Char} (hs : skipText text = some start)
    (hne : start ≠ []) (hat : l'.At symbols start) (hskip : Lexer.skip l = (.ok (), l')) :
    ∃ gap, Filler gap ∧ text = gap ++ start ∧ l'.Behind symbols (read ++ gap) start := by
  rcases filler_of_skipText hs with ⟨gap, rfl, hgap⟩ | ⟨hnil, -⟩
  · refine ⟨gap, hgap, rfl, hat, ?_⟩
    have hmoved := position_skip l
    rw [hskip, hat.rest, h.rest, h.position] at hmoved
    simp only [byteCount_append] at hmoved ⊢
    omega
  · exact absurd hnil hne

/-- The span of a token that is taken is where its characters stand. -/
theorem Behind.take {chars rest : List Char} (h : l.Behind symbols read (chars ++ rest)) (kind : TokenKind) :
    ∃ t l', Lexer.take kind chars rest l = (.ok t, l') ∧ t.piece = ⟨kind, String.ofList chars⟩ ∧
      t.span = .between (byteCount read) (byteCount read + byteCount chars) ∧
        l'.Behind symbols (read ++ chars) rest := by
  have hposition : (l.past chars rest).position = byteCount (read ++ chars) := by
    rw [byteCount_append, ← h.position]
    rfl
  have hspan : Span.between l.position (l.past chars rest).position =
      .between (byteCount read) (byteCount read + byteCount chars) := by
    rw [hposition, byteCount_append, h.position]
  cases kind <;>
    exact ⟨_, _, rfl, rfl, hspan, ⟨h.split, h.symbols, rfl⟩, hposition⟩

/-- A token is taken from behind a filler. -/
theorem Behind.nextToken?_some {definitions : List (String × List String)}
    (h : l.Behind (.ofGroups definitions) read text) (hnext : Lexer.nextToken? l = (.ok (some t), l')) :
    ∃ gap after, Filler gap ∧ l'.Behind (.ofGroups definitions) (read ++ gap ++ t.text.toList) after ∧
      text = gap ++ (t.text.toList ++ after) ∧
        t.Between (SymbolTable.ofGroups definitions).all (read ++ text) (read ++ gap) after := by
  cases hs : skipText text with
  | none =>
    obtain ⟨e, l'', hfault⟩ := h.nextToken?_unclosed hs
    rw [hfault] at hnext
    cases hnext
  | some start =>
    rcases h.nextToken? hs with ⟨l'', -, hend, -⟩ | ⟨p, after, -, -, hl, -⟩ | ⟨e, l'', -, -, hfault⟩
    · rw [hend] at hnext
      cases hnext
    · obtain ⟨l₁, mark, hat, hskip, heq⟩ := h.nextToken?_of_lexeme? hs hl
      obtain ⟨happend, hne⟩ := lexeme?_append hl
      obtain ⟨gap, hgap, rfl, hbehind⟩ := h.skip hs (by simp [← happend, hne]) hat hskip
      subst happend
      -- a request for a token sets a mark behind what it skipped, which moves nothing
      have hmarked : Behind { l₁ with mark } (.ofGroups definitions) (read ++ gap) (p.text.toList ++ after) :=
        ⟨⟨hat.split, hat.symbols, hat.rest⟩, hbehind.position⟩
      obtain ⟨t', l₂, htake, hpiece, hspan, hbehind⟩ := hmarked.take p.kind
      rw [heq, Lexing.map_apply, htake] at hnext
      cases hnext
      rw [String.ofList_toList] at hpiece
      obtain rfl : t.piece = p := hpiece
      refine ⟨gap, after, hgap, hbehind, rfl, ?_, hl, hspan⟩
      rw [List.append_assoc]
      rfl
    · rw [hfault] at hnext
      cases hnext

/-- Where no token comes next, nothing but a filler does. -/
theorem Behind.nextToken?_none (h : l.Behind symbols read text)
    (hnext : Lexer.nextToken? l = (.ok none, l')) : LastFiller text := by
  cases hs : skipText text with
  | none =>
    obtain ⟨e, l'', hfault⟩ := h.nextToken?_unclosed hs
    rw [hfault] at hnext
    cases hnext
  | some start =>
    rcases h.nextToken? hs with ⟨l'', rfl, -⟩ | ⟨p, after, t, l'', -, -, hsome, -⟩ |
      ⟨e, l'', -, -, hfault⟩
    · rcases filler_of_skipText hs with ⟨gap, rfl, hgap⟩ | ⟨-, hlast⟩
      · rw [List.append_nil]
        exact .complete hgap
      · exact hlast
    · rw [hsome] at hnext
      cases hnext
    · rw [hfault] at hnext
      cases hnext

/-- Tokens that are taken one after the other lay out the text that is read. -/
theorem Behind.laidOut {definitions : List (String × List String)}
    (h : l.Behind (.ofGroups definitions) read text) {fuel : Nat} (hfuel : text.length < fuel)
    {ts : List Token} (hts : tokensWithin fuel l = (ts, none)) :
    LaidOut (SymbolTable.ofGroups definitions).all (read ++ text) read ts := by
  -- the part that is read grows with each step, the whole source `read ++ text` stays
  induction fuel generalizing l read text ts with
  | zero => exact absurd hfuel (Nat.not_lt_zero _)
  | succ fuel ih =>
    cases hnext : Lexer.nextToken? l with
    | mk answer l' =>
      rcases answer with e | _ | t
      · rw [tokensWithin_succ_of_fault fuel hnext] at hts
        cases hts
      · rw [tokensWithin_succ_of_end fuel hnext] at hts
        obtain ⟨rfl, -⟩ := Prod.mk.inj hts
        exact .last rfl (h.nextToken?_none hnext)
      · rw [tokensWithin_succ_of_token fuel hnext] at hts
        obtain ⟨rfl, hfault⟩ := Prod.mk.inj hts
        obtain ⟨gap, after, hgap, hbehind, rfl, hbetween⟩ := h.nextToken?_some hnext
        have hlength : after.length < fuel := by
          have := List.length_pos_iff.2 hbetween.text_ne_nil
          simp only [List.length_append] at hfuel
          omega
        have hmore := ih hbehind hlength (Prod.ext rfl hfault)
        -- the next step starts behind this token, in the same source
        have hsame : read ++ gap ++ t.text.toList ++ after = read ++ (gap ++ (t.text.toList ++ after)) := by
          rw [List.append_assoc, List.append_assoc]
        rw [hsame] at hmore
        exact .token hgap hbetween hmore

/-- Every token that is taken has its place in the source, also before a fault. -/
theorem Behind.between {definitions : List (String × List String)} (h : l.Behind (.ofGroups definitions) read text)
    (fuel : Nat) : ∀ t ∈ (tokensWithin fuel l).1, ∃ before after,
      t.Between (SymbolTable.ofGroups definitions).all (read ++ text) before after := by
  induction fuel generalizing l read text with
  | zero => exact nofun
  | succ fuel ih =>
    cases hnext : Lexer.nextToken? l with
    | mk answer l' =>
      rcases answer with e | _ | t
      · rw [tokensWithin_succ_of_fault fuel hnext]
        exact nofun
      · rw [tokensWithin_succ_of_end fuel hnext]
        exact nofun
      · rw [tokensWithin_succ_of_token fuel hnext]
        obtain ⟨gap, after, -, hbehind, rfl, hbetween⟩ := h.nextToken?_some hnext
        have hmore := ih hbehind
        rw [List.append_assoc, List.append_assoc] at hmore
        exact List.forall_mem_cons.2 ⟨⟨_, _, hbetween⟩, hmore⟩

end Lexer

theorem between_of_mem_tokenize {source : String} {definitions : List (String × List String)} {t : Token}
    (h : t ∈ (tokenize source (.ofGroups definitions)).1) : ∃ before after,
      t.Between (SymbolTable.ofGroups definitions).all source.toList before after := by
  have hstart : (ofSource source (.ofGroups definitions)).Behind (.ofGroups definitions) [] source.toList :=
    ⟨.ofSource source _, rfl⟩
  exact hstart.between _ t h

/-- The tokens of a source that is read to its end without a fault, with any table of symbols, are in order
and cover the source but for the fillers between them; names and symbols are as long as can be. -/
theorem tokenize_partitioned {source : String} {definitions : List (String × List String)}
    {tokens : List Token} (hsize : source.utf8ByteSize < 2 ^ 32)
    (h : tokenize source (.ofGroups definitions) = (tokens, none)) :
    Partitioned (SymbolTable.ofGroups definitions).all source.toList tokens := by
  have hstart : (ofSource source (.ofGroups definitions)).Behind (.ofGroups definitions) [] source.toList :=
    ⟨.ofSource source _, rfl⟩
  refine (hstart.laidOut (Nat.lt_succ_self _) h).partitioned ?_
  rw [List.nil_append, byteCount_toList]
  exact Nat.le_of_lt_succ hsize

/-- The longest symbol behind the comment takes the first character of another one, a name stands right behind
it, and nothing ends the line comment. -/
theorem tokenize_partitioned_unspaced :
    (tokenize "a/**/≤=b2 // end" (.ofGroups [("Comparison", ["<", "≤", "≤=", "=b"])])).1.map (·.span) =
        [⟨0, 1⟩, ⟨5, 9⟩, ⟨9, 11⟩] ∧
      Partitioned (SymbolTable.ofGroups [("Comparison", ["<", "≤", "≤=", "=b"])]).all "a/**/≤=b2 // end".toList
        (tokenize "a/**/≤=b2 // end" (.ofGroups [("Comparison", ["<", "≤", "≤=", "=b"])])).1 := by
  have hend : (tokenize "a/**/≤=b2 // end" (.ofGroups [("Comparison", ["<", "≤", "≤=", "=b"])])).2 = none := by
    decide +kernel
  exact ⟨by decide +kernel, tokenize_partitioned (by decide +kernel) (Prod.ext rfl hend)⟩

end LatentExpr
