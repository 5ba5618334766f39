import LatentExpr.Proofs.Token.Again
import LatentExpr.Proofs.Token.Undivided

/-!
Reading by bytes. The scanners of this module look at single bytes and answer how many they go over: they know
nothing of characters. On the bytes of a text each of them goes over those of the lexeme that begins the text, so it
starts and stops between two characters, although a backslash keeps just the next byte and a comment ends where the
bytes of its end are found. Texts are read out between two offsets only, and only where there are texts (`slice?`).
-/
namespace LatentExpr

open Lexer

/-! ### Bytes of characters -/

/-- A character of ASCII is its only byte, and no byte of another one is of ASCII. -/
theorem encode_cases (c : Char) :
    (∃ b : UInt8, b < 128 ∧ String.utf8EncodeChar c = [b] ∧ c = Char.ofUInt8 b) ∨
      128 ≤ c.toNat ∧ ∀ b ∈ String.utf8EncodeChar c, 128 ≤ b.toNat := by
  obtain ⟨first, others, hencode, hfirst, hothers⟩ := continues_encode c
  have hhead : (String.utf8EncodeChar c).head? = some first := by rw [hencode, List.head?_cons]
  by_cases hascii : first < 128
  · obtain ⟨hsingle, hnat⟩ := encode_of_ascii hhead hascii
    exact .inl ⟨first, hascii, hsingle, Char.toNat_inj.1 hnat⟩
  · have hwide : 128 ≤ first.toNat := Nat.le_of_not_lt hascii
    refine .inr ⟨Nat.le_of_not_lt fun hlt => hascii ?_, ?_⟩
    · -- a small character is encoded as the byte that it is
      have hval : c.val.toNat ≤ 127 := Nat.le_of_lt_succ hlt
      unfold String.utf8EncodeChar at hhead
      dsimp only at hhead
      rw [if_pos hval] at hhead
      obtain rfl := Option.some.inj hhead
      show (UInt8.ofNat c.val.toNat).toNat < 128
      rw [UInt8.toNat_ofNat']
      omega
    · rw [hencode]
      exact List.forall_mem_cons.2 ⟨hwide, fun b hb => (hothers b hb).1⟩

theorem ofUInt8_inj {a b : UInt8} (h : Char.ofUInt8 a = Char.ofUInt8 b) : a = b :=
  UInt8.toNat_inj.1 (congrArg Char.toNat h)

theorem encode_ofUInt8 {b : UInt8} (h : b < 128) : String.utf8EncodeChar (Char.ofUInt8 b) = [b] := by
  rcases encode_cases (Char.ofUInt8 b) with ⟨b', -, hencode, hchar⟩ | ⟨hwide, -⟩
  · rw [hencode, ofUInt8_inj hchar]
  · exact absurd h (Nat.not_lt.2 hwide)

theorem utf8Size_ofUInt8 {b : UInt8} (h : b < 128) : (Char.ofUInt8 b).utf8Size = 1 := by
  rw [← String.length_utf8EncodeChar, encode_ofUInt8 h, List.length_singleton]

theorem utf8Size_of_ascii {c : Char} (h : c.toNat < 128) : c.utf8Size = 1 := by
  rcases encode_cases c with ⟨b, hb, -, rfl⟩ | ⟨hwide, -⟩
  · exact utf8Size_ofUInt8 hb
  · exact absurd h (Nat.not_lt.2 hwide)

namespace Bytewise

/-! ### Texts between offsets -/

/-- A text cut in two at a byte offset. There is no cut inside of a character or behind the end. -/
def cut? : Nat → List Char → Option (List Char × List Char)
  | 0, text => some ([], text)
  | _ + 1, [] => none
  | offset + 1, c :: text =>
    if c.utf8Size ≤ offset + 1 then
      (cut? (offset + 1 - c.utf8Size) text).map fun halves => (c :: halves.1, halves.2)
    else none

/-- The text between two byte offsets, if both are between characters and the first one does not come later. -/
def slice? (source : List Char) (start stop : Nat) : Option (List Char) := do
  let upTo ← cut? stop source
  let text ← cut? start upTo.1
  return text.2

theorem cut?_eq_some_iff {offset : Nat} {text before after : List Char} :
    cut? offset text = some (before, after) ↔ text = before ++ after ∧ offset = byteCount before := by
  fun_induction cut? offset text generalizing before with
  | case1 text =>
    constructor
    · rintro ⟨⟩
      exact ⟨rfl, rfl⟩
    · rintro ⟨rfl, hzero⟩
      cases before with
      | nil => rfl
      | cons c before => exact absurd hzero (byteCount_pos (List.cons_ne_nil _ _)).ne
  | case2 offset =>
    refine iff_of_false nofun ?_
    rintro ⟨htext, hoffset⟩
    obtain ⟨rfl, -⟩ := List.append_eq_nil_iff.1 htext.symm
    cases hoffset
  | case3 offset c text hle ih =>
    rw [Option.map_eq_some_iff]
    constructor
    · rintro ⟨halves, hcut, hhalves⟩
      obtain ⟨rfl, rfl⟩ := Prod.mk.inj hhalves
      obtain ⟨htext, hoffset⟩ := ih.1 hcut
      refine ⟨congrArg (c :: ·) htext, ?_⟩
      rw [byteCount_cons]
      omega
    · rintro ⟨htext, hoffset⟩
      cases before with
      | nil => cases hoffset
      | cons d before =>
        obtain ⟨rfl, htail⟩ := List.cons.inj htext
        rw [byteCount_cons] at hoffset
        exact ⟨(before, after), ih.2 ⟨htail, by omega⟩, rfl⟩
  | case4 offset c text hle =>
    refine iff_of_false nofun ?_
    rintro ⟨htext, hoffset⟩
    cases before with
    | nil => cases hoffset
    | cons d before =>
      obtain ⟨rfl, -⟩ := List.cons.inj htext
      rw [byteCount_cons] at hoffset
      omega

theorem slice?_eq_some_iff {source text : List Char} {start stop : Nat} :
    slice? source start stop = some text ↔ ∃ before after, source = before ++ (text ++ after) ∧
      start = byteCount before ∧ stop = byteCount before + byteCount text := by
  simp only [slice?, Option.bind_eq_bind, Option.bind_eq_some_iff, Option.pure_def, Option.some.injEq,
    Prod.exists, cut?_eq_some_iff]
  constructor
  · rintro ⟨upTo, after, ⟨hsource, hstop⟩, before, inner, ⟨rfl, hstart⟩, rfl⟩
    refine ⟨before, after, ?_, hstart, ?_⟩
    · rw [hsource, List.append_assoc]
    · rw [hstop, byteCount_append]
  · rintro ⟨before, after, hsource, hstart, hstop⟩
    refine ⟨before ++ text, after, ⟨?_, ?_⟩, before, text, ⟨rfl, hstart⟩, rfl⟩
    · rw [hsource, List.append_assoc]
    · rw [hstop, byteCount_append]

theorem slice?_append (before text after : List Char) :
    slice? (before ++ (text ++ after)) (byteCount before) (byteCount before + byteCount text) = some text :=
  slice?_eq_some_iff.2 ⟨before, after, rfl, rfl, rfl⟩

/-- All that is left of a source. -/
theorem slice?_rest (before text : List Char) :
    slice? (before ++ text) (byteCount before) (byteCount (before ++ text)) = some text :=
  slice?_eq_some_iff.2 ⟨before, [], by rw [List.append_nil], rfl, byteCount_append ..⟩

/-- The first characters of a text. -/
theorem slice?_take (text : List Char) (n : Nat) : slice? text 0 (byteCount (text.take n)) = some (text.take n) :=
  slice?_eq_some_iff.2 ⟨[], text.drop n, (List.take_append_drop n text).symm, rfl, (Nat.zero_add _).symm⟩

/-! ### Runs of bytes -/

/-- The number of bytes with a property at the start. -/
def run (q : UInt8 → Bool) (input : List UInt8) : Nat := (input.takeWhile q).length

/-- Whether a byte is, by itself, a character of a class. -/
def isIn (p : Char → Bool) (b : UInt8) : Bool := p (Char.ofUInt8 b)

variable {p : Char → Bool} {q : UInt8 → Bool}

/-- A run of bytes ends between characters if its bytes are those of the characters of a run. -/
theorem run_bytes (hin : ∀ c, p c = true → ∀ b ∈ String.utf8EncodeChar c, q b = true)
    (hout : ∀ c, p c = false → ∀ b ∈ (String.utf8EncodeChar c).head?, q b = false) (text : List Char) :
    run q (Matcher.bytes text) = byteCount (text.takeWhile p) := by
  induction text with
  | nil => rfl
  | cons c text ih =>
    rw [run, Matcher.bytes_cons]
    cases hc : p c with
    | true =>
      rw [List.takeWhile_append_of_pos (hin c hc), List.takeWhile_cons_of_pos hc, List.length_append, byteCount_cons,
        String.length_utf8EncodeChar]
      exact congrArg (c.utf8Size + ·) ih
    | false =>
      rw [List.takeWhile_cons_of_neg (ne_true_of_eq_false hc)]
      obtain ⟨first, others, hencode, -⟩ := continues_encode c
      have hfirst : q first = false := hout c hc first (by rw [hencode]; rfl)
      rw [hencode, List.cons_append, List.takeWhile_cons_of_neg (ne_true_of_eq_false hfirst)]
      rfl

/-- A class of characters that are all of ASCII. -/
def Ascii (p : Char → Bool) : Prop := ∀ c, p c = true → c.toNat < 128

/-- A class of characters of ASCII is one of bytes. -/
theorem run_isIn (hp : Ascii p) (text : List Char) :
    run (isIn p) (Matcher.bytes text) = byteCount (text.takeWhile p) := by
  refine run_bytes (fun c hc b hb => ?_) (fun c hc b hb => ?_) text
  · rcases encode_cases c with ⟨b', -, hencode, hchar⟩ | ⟨hwide, -⟩
    · rw [hencode] at hb
      rw [List.mem_singleton.1 hb, isIn, ← hchar, hc]
    · exact absurd (hp c hc) (Nat.not_lt.2 hwide)
  · rcases encode_cases c with ⟨b', -, hencode, hchar⟩ | ⟨-, hwide⟩
    · rw [hencode] at hb
      obtain rfl := Option.some.inj hb
      rw [isIn, ← hchar, hc]
    · refine Bool.eq_false_iff.2 fun h => ?_
      have hascii := hp _ h
      have hle := hwide b (List.mem_of_mem_head? hb)
      have : (Char.ofUInt8 b).toNat = b.toNat := rfl
      omega

/-- Whether a text starts with a character of a class shows in its first byte. -/
theorem head?_bytes (hp : Ascii p) (text : List Char) :
    (Matcher.bytes text).head?.any (isIn p) = text.head?.any p := by
  cases text with
  | nil => rfl
  | cons c text =>
    rw [Matcher.bytes_cons, List.head?_cons, Option.any_some]
    rcases encode_cases c with ⟨b, -, hencode, rfl⟩ | ⟨hwide, hall⟩
    · rw [hencode]
      rfl
    · have hc : p c = false := Bool.eq_false_iff.2 fun h => absurd (hp c h) (Nat.not_lt.2 hwide)
      obtain ⟨first, others, hencode, -⟩ := continues_encode c
      have hfirst : 128 ≤ first.toNat := hall first (by rw [hencode]; exact List.mem_cons_self)
      rw [hc, hencode, List.cons_append, List.head?_cons, Option.any_some]
      exact Bool.eq_false_iff.2 fun h => absurd (hp _ h) (Nat.not_lt.2 hfirst)

/-- The bytes behind a text with which another one begins. -/
theorem drop_bytes {before after text : List Char} (h : before ++ after = text) :
    (Matcher.bytes text).drop (byteCount before) = Matcher.bytes after := by
  rw [← h, Matcher.drop_bytes_append]

/-- The bytes behind a character of ASCII. -/
theorem drop_bytes_ascii {c : Char} (h : c.toNat < 128) (text : List Char) :
    (Matcher.bytes (c :: text)).drop 1 = Matcher.bytes text := by
  rw [← utf8Size_of_ascii h, ← byteCount_singleton]
  exact drop_bytes rfl

/-! ### Numbers and names -/

section
open Text

/-- A point and the digits behind it, if a point comes first. -/
def fraction (input : List UInt8) : Nat :=
  if input.head?.any (isIn (· = '.')) then 1 + run (isIn Char.isDigit) (input.drop 1) else 0

/-- A sign, if one comes first. -/
def sign (input : List UInt8) : Nat :=
  if input.head?.any (isIn fun c => c = '+' ∨ c = '-') then 1 else 0

/-- The marker of an exponent with its sign and digits, if the marker comes first. -/
def exponent (input : List UInt8) : Nat :=
  if input.head?.any (isIn fun c => c = 'e' ∨ c = 'E') then
    let marked := 1 + sign (input.drop 1)
    marked + run (isIn Char.isDigit) (input.drop marked)
  else 0

/-- Digits, a fraction and an exponent, each of which may be missing. -/
def decimal (input : List UInt8) : Nat :=
  let whole := run (isIn Char.isDigit) input
  let pointed := whole + fraction (input.drop whole)
  pointed + exponent (input.drop pointed)

/-- A number that starts with zero: its second byte chooses the radix. -/
def fromZero (input : List UInt8) : Nat :=
  let second := (input.drop 1).head?
  if second.any (isIn fun c => c = 'x' ∨ c = 'X') then 2 + run (isIn isHexDigit) (input.drop 2)
  else if second.any (isIn fun c => c = 'b' ∨ c = 'B') then 2 + run (isIn isBinaryDigit) (input.drop 2)
  else if second.any (isIn isOctalDigit) then 1 + run (isIn isOctalDigit) (input.drop 1)
  else decimal input

/-- An identifier, its first byte included. -/
def identifier (input : List UInt8) : Nat := 1 + run (isIn isIdentContinue) (input.drop 1)

theorem ascii_isIdentContinue : Ascii isIdentContinue := fun _ => toNat_lt_of_isIdentContinue

theorem Ascii.of_isIdentContinue (h : ∀ c, p c = true → isIdentContinue c = true) : Ascii p :=
  fun c hc => toNat_lt_of_isIdentContinue (h c hc)

theorem ascii_isIdentStart : Ascii isIdentStart :=
  .of_isIdentContinue fun c hc => by rw [isIdentContinue, hc, Bool.true_or]

theorem ascii_isDigit : Ascii Char.isDigit := .of_isIdentContinue fun _ => Lexeme.isIdentContinue_of_isDigit

theorem ascii_isOctalDigit : Ascii isOctalDigit := .of_isIdentContinue fun _ => Lexeme.isIdentContinue_of_isOctalDigit

theorem ascii_isBinaryDigit : Ascii isBinaryDigit :=
  .of_isIdentContinue fun _ => Lexeme.isIdentContinue_of_isBinaryDigit

theorem ascii_isHexDigit : Ascii isHexDigit := .of_isIdentContinue fun _ => Lexeme.isIdentContinue_of_isHexDigit

theorem ascii_eq {c : Char} (h : c.toNat < 128) : Ascii (· = c) := fun _ hd => of_decide_eq_true hd ▸ h

theorem ascii_eq_or {c d : Char} (hc : c.toNat < 128) (hd : d.toNat < 128) : Ascii fun x => x = c ∨ x = d :=
  fun _ hx => (of_decide_eq_true hx).elim (· ▸ hc) (· ▸ hd)

theorem fraction_bytes (text : List Char) : fraction (Matcher.bytes text) = byteCount (Lexeme.fraction text).1 := by
  have hhead : text.head?.any (· = '.') = true ↔ text.head? = some '.' := by cases text.head? <;> simp
  rw [fraction, head?_bytes (ascii_eq (by decide))]
  by_cases hpoint : text.head? = some '.'
  · obtain ⟨rest, rfl⟩ := List.head?_eq_some_iff.1 hpoint
    rw [if_pos (hhead.2 hpoint), drop_bytes_ascii (by decide), run_isIn ascii_isDigit, Lexeme.fraction,
      byteCount_cons]
    rfl
  · rw [Lexeme.fraction_of_not_point hpoint, if_neg (mt hhead.1 hpoint)]
    rfl

theorem sign_bytes (text : List Char) : sign (Matcher.bytes text) = byteCount (Lexeme.sign text).1 := by
  rw [sign, head?_bytes (ascii_eq_or (by decide) (by decide))]
  cases text with
  | nil => rfl
  | cons c rest =>
    rw [List.head?_cons, Option.any_some, Lexeme.sign]
    by_cases hsign : c = '+' ∨ c = '-'
    · rw [if_pos (decide_eq_true hsign), if_pos hsign, byteCount_singleton]
      exact (utf8Size_of_ascii (hsign.elim (· ▸ by decide) (· ▸ by decide))).symm
    · rw [if_neg (by simpa using hsign), if_neg hsign]
      rfl

theorem exponent_bytes (text : List Char) : exponent (Matcher.bytes text) = byteCount (Lexeme.exponent text).1 := by
  rw [exponent, head?_bytes (ascii_eq_or (by decide) (by decide))]
  cases text with
  | nil => rfl
  | cons c rest =>
    rw [List.head?_cons, Option.any_some, Lexeme.exponent]
    by_cases hmarker : c = 'e' ∨ c = 'E'
    · have hc : c.toNat < 128 := hmarker.elim (· ▸ by decide) (· ▸ by decide)
      have hmarked : (c :: (Lexeme.sign rest).1) ++ (Lexeme.sign rest).2 = c :: rest :=
        congrArg (c :: ·) (Lexeme.sign_append rest)
      have hcount : 1 + byteCount (Lexeme.sign rest).1 = byteCount (c :: (Lexeme.sign rest).1) := by
        rw [byteCount_cons, utf8Size_of_ascii hc]
      rw [if_pos (decide_eq_true hmarker), if_pos hmarker]
      dsimp only
      rw [drop_bytes_ascii hc, sign_bytes, hcount, drop_bytes hmarked, run_isIn ascii_isDigit, ← byteCount_append]
      rfl
    · rw [if_neg (by simpa using hmarker), if_neg hmarker]
      rfl

theorem decimal_bytes (text : List Char) : decimal (Matcher.bytes text) = byteCount (Lexeme.decimal text).1 := by
  have hwhole := Lexeme.run_append Char.isDigit text
  have hpointed : ((Lexeme.run Char.isDigit text).1 ++ (Lexeme.fraction (Lexeme.run Char.isDigit text).2).1) ++
      (Lexeme.fraction (Lexeme.run Char.isDigit text).2).2 = text := by
    rw [List.append_assoc, Lexeme.fraction_append, hwhole]
  have hrun : run (isIn Char.isDigit) (Matcher.bytes text) = byteCount (Lexeme.run Char.isDigit text).1 :=
    run_isIn ascii_isDigit text
  rw [decimal, hrun, drop_bytes hwhole, fraction_bytes, ← byteCount_append, drop_bytes hpointed, exponent_bytes,
    ← byteCount_append]
  rfl

theorem identifier_bytes {c : Char} (hc : c.toNat < 128) (text : List Char) :
    identifier (Matcher.bytes (c :: text)) = byteCount (Lexeme.identifier (c :: text)).1 := by
  rw [identifier, drop_bytes_ascii hc, run_isIn ascii_isIdentContinue, ← utf8Size_of_ascii hc, ← byteCount_cons]
  rfl

theorem fromZero_bytes (text : List Char) :
    fromZero (Matcher.bytes ('0' :: text)) = byteCount (Lexeme.fromZero ('0' :: text)).1 := by
  have hzero : (Matcher.bytes ('0' :: text)).drop 1 = Matcher.bytes text := drop_bytes_ascii (by decide) text
  have htwo : (Matcher.bytes ('0' :: text)).drop 2 = (Matcher.bytes text).drop 1 := by rw [← hzero, List.drop_drop]
  rw [fromZero, hzero, htwo, head?_bytes (ascii_eq_or (by decide) (by decide)),
    head?_bytes (ascii_eq_or (by decide) (by decide)), head?_bytes ascii_isOctalDigit, run_isIn ascii_isOctalDigit,
    decimal_bytes]
  cases text with
  | nil => rfl
  | cons c rest =>
    rw [List.head?_cons, Option.any_some, Option.any_some, Option.any_some, Lexeme.fromZero]
    -- the prefix of a radix is two characters of ASCII
    have hprefix {p : Char → Bool} (hp : Ascii p) (hc : c.toNat < 128) :
        2 + run (isIn p) ((Matcher.bytes (c :: rest)).drop 1) = byteCount ('0' :: c :: rest.takeWhile p) := by
      rw [drop_bytes_ascii hc, run_isIn hp, byteCount_cons, byteCount_cons, utf8Size_of_ascii hc, ← Nat.add_assoc]
      rfl
    by_cases hhex : c = 'x' ∨ c = 'X'
    · rw [if_pos (decide_eq_true hhex), if_pos hhex]
      exact hprefix ascii_isHexDigit (hhex.elim (· ▸ by decide) (· ▸ by decide))
    rw [if_neg (by simpa using hhex), if_neg hhex]
    by_cases hbinary : c = 'b' ∨ c = 'B'
    · rw [if_pos (decide_eq_true hbinary), if_pos hbinary]
      exact hprefix ascii_isBinaryDigit (hbinary.elim (· ▸ by decide) (· ▸ by decide))
    rw [if_neg (by simpa using hbinary), if_neg hbinary]
    split
    · rw [byteCount_cons]
      rfl
    · rfl

end

/-! ### Strings -/

/-- The bytes of a string behind its opening quote, with the closing one if there is one. A flag tells that the
byte before was a backslash. -/
def stringTail (quote : UInt8) : Bool → List UInt8 → Nat × Lexeme.StringEnd
  | _, [] => (0, .unterminated)
  | true, _ :: input => (stringTail quote false input).map (· + 1) id
  | false, b :: input =>
    if b = '\\'.toUInt8 then (stringTail quote true input).map (· + 1) id
    else if b = quote then (1, .closed)
    else if b = '\n'.toUInt8 then (0, .unterminated)
    else (stringTail quote false input).map (· + 1) id

/-- Bytes beyond ASCII are nothing special in a string. -/
theorem stringTail_wide {quote : UInt8} (hquote : quote < 128) {wide : List UInt8} (hwide : ∀ b ∈ wide, 128 ≤ b.toNat)
    (input : List UInt8) :
    stringTail quote false (wide ++ input) = (stringTail quote false input).map (wide.length + ·) id := by
  induction wide with
  | nil => simp [Prod.map]
  | cons b wide ih =>
    obtain ⟨hb, hwide⟩ := List.forall_mem_cons.1 hwide
    have hne {x : UInt8} (hx : x.toNat < 128) : b ≠ x := by
      rintro rfl
      omega
    rw [List.cons_append, stringTail, if_neg (hne (by decide)), if_neg (hne hquote), if_neg (hne (by decide)), ih hwide]
    simp only [Prod.map, id, List.length_cons]
    rw [Nat.add_right_comm]

/-- The flag keeps the first byte of an escaped character only; the others could not end the string anyway. -/
theorem stringTail_bytes {quote : UInt8} (hquote : quote < 128) (text : List Char) :
    stringTail quote false (Matcher.bytes text) =
      (byteCount (Lexeme.stringTail (Char.ofUInt8 quote) text).1, (Lexeme.stringTail (Char.ofUInt8 quote) text).2.2) := by
  have hbackslash : String.utf8EncodeChar '\\' = ['\\'.toUInt8] := by decide
  have hplain {c : Char} {rest : List Char} (hend : c = '\\' → rest = [] → False)
      (hmore : ∀ d more, c = '\\' → rest = d :: more → False) : c ≠ '\\' := by
    rintro rfl
    cases rest with
    | nil => exact hend rfl rfl
    | cons d more => exact hmore d more rfl rfl
  fun_induction Lexeme.stringTail (Char.ofUInt8 quote) text with
  | case1 => rfl
  | case2 =>
    rw [Matcher.bytes_cons]
    rfl
  | case3 c rest tail behind ending hrest ih =>
    obtain ⟨first, others, hencode, -, hothers⟩ := continues_encode c
    have hwide : ∀ b ∈ others, 128 ≤ b.toNat := fun b hb => (hothers b hb).1
    have hsize : c.utf8Size = others.length + 1 := by rw [← String.length_utf8EncodeChar, hencode, List.length_cons]
    have hone : '\\'.utf8Size = 1 := rfl
    rw [Matcher.bytes_cons, Matcher.bytes_cons, hbackslash, hencode, List.cons_append, List.nil_append,
      List.cons_append, stringTail, if_pos rfl, stringTail, stringTail_wide hquote hwide, ih, hrest]
    simp only [Prod.map, id, byteCount_cons, hsize, hone, Prod.mk.injEq, and_true]
    omega
  | case4 rest hend hmore =>
    have hne : quote ≠ '\\'.toUInt8 := fun h => hplain hend hmore (congrArg Char.ofUInt8 h)
    rw [Matcher.bytes_cons, encode_ofUInt8 hquote, List.cons_append, stringTail, if_neg hne, if_pos rfl,
      byteCount_singleton, utf8Size_ofUInt8 hquote]
  | case5 rest _ _ hne =>
    have hquote' : '\n'.toUInt8 ≠ quote := fun h => hne (congrArg Char.ofUInt8 h)
    have hfeed : String.utf8EncodeChar '\n' = ['\n'.toUInt8] := by decide
    rw [Matcher.bytes_cons, hfeed, List.cons_append, stringTail, if_neg (by decide), if_neg hquote', if_pos rfl]
    rfl
  | case6 c rest hend hmore hne hfeed tail behind ending hrest ih =>
    rw [hrest] at ih
    rw [Matcher.bytes_cons, byteCount_cons]
    rcases encode_cases c with ⟨b, hb, hencode, rfl⟩ | ⟨-, hwide⟩
    · have hbackslash : b ≠ '\\'.toUInt8 := fun h => hplain hend hmore (congrArg Char.ofUInt8 h)
      have hquote' : b ≠ quote := fun h => hne (congrArg Char.ofUInt8 h)
      have hfeed' : b ≠ '\n'.toUInt8 := fun h => hfeed (congrArg Char.ofUInt8 h)
      rw [hencode, List.cons_append, List.nil_append, stringTail, if_neg hbackslash, if_neg hquote', if_neg hfeed', ih,
        utf8Size_ofUInt8 hb, Nat.add_comm 1]
      rfl
    · rw [stringTail_wide hquote hwide, ih, String.length_utf8EncodeChar]
      rfl

/-! ### Comments -/

/-- The bytes up to the next line feed. -/
def line (input : List UInt8) : Nat := run (· != '\n'.toUInt8) input

/-- The bytes before the first `*/`. -/
def close? : List UInt8 → Option Nat
  | [] => none
  | b :: input =>
    if b = '*'.toUInt8 ∧ input.head? = some '/'.toUInt8 then some 0 else (close? input).map (· + 1)

theorem line_bytes (text : List Char) : line (Matcher.bytes text) = byteCount (Comment.splitLine text).1 := by
  refine run_bytes (fun c hc b hb => ?_) (fun c hc b hb => ?_) text
  · rw [bne_iff_ne] at hc ⊢
    rintro rfl
    rcases encode_cases c with ⟨b', -, hencode, hchar⟩ | ⟨-, hwide⟩
    · rw [hencode] at hb
      exact hc (hchar.trans (congrArg Char.ofUInt8 (List.mem_singleton.1 hb).symm))
    · exact absurd (hwide _ hb) (by decide)
  · obtain rfl : c = '\n' := by simpa using hc
    have hfeed : String.utf8EncodeChar '\n' = ['\n'.toUInt8] := by decide
    rw [hfeed] at hb
    obtain rfl := Option.some.inj hb
    decide

/-- The end of a comment is not found inside of a character. -/
theorem close?_bytes (text : List Char) :
    close? (Matcher.bytes text) = (Comment.splitClose? text).map fun halves => byteCount halves.1 := by
  have hwide {wide : List UInt8} (h : ∀ b ∈ wide, 128 ≤ b.toNat) (input : List UInt8) :
      close? (wide ++ input) = (close? input).map (· + wide.length) := by
    induction wide with
    | nil => simp
    | cons b wide ih =>
      obtain ⟨hb, hwide⟩ := List.forall_mem_cons.1 h
      have hne : b ≠ '*'.toUInt8 := by
        rintro rfl
        exact absurd hb (by decide)
      rw [List.cons_append, close?, if_neg (fun h => hne h.1), ih hwide, Option.map_map]
      rfl
  fun_induction Comment.splitClose? text with
  | case1 => rfl
  | case2 rest =>
    rw [Matcher.bytes_cons, Matcher.bytes_cons]
    rfl
  | case3 c rest hne ih =>
    rw [Matcher.bytes_cons, Option.map_map]
    rcases encode_cases c with ⟨b, hb, hencode, rfl⟩ | ⟨-, hall⟩
    · have hnot : ¬(b = '*'.toUInt8 ∧ (Matcher.bytes rest).head? = some '/'.toUInt8) := by
        rintro ⟨rfl, hslash⟩
        cases rest with
        | nil => cases hslash
        | cons d more =>
          rw [Matcher.bytes_cons, List.head?_append_of_ne_nil _ String.utf8EncodeChar_ne_nil] at hslash
          have hd : d = '/' := Char.toNat_inj.1 (encode_of_ascii hslash (by decide)).2
          exact hne more rfl (hd ▸ rfl)
      rw [hencode, List.cons_append, List.nil_append, close?, if_neg hnot, ih, Option.map_map]
      refine congrArg (fun f => Option.map f _) (funext fun halves => ?_)
      show byteCount halves.1 + 1 = byteCount (Char.ofUInt8 b :: halves.1)
      rw [byteCount_cons, utf8Size_ofUInt8 hb, Nat.add_comm]
    · rw [hwide hall, ih, Option.map_map, String.length_utf8EncodeChar]
      refine congrArg (fun f => Option.map f _) (funext fun halves => ?_)
      exact Nat.add_comm _ _

end Bytewise

end LatentExpr
