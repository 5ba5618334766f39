import LatentExpr.Proofs.Token.Onward
import LatentExpr.Text.Units

/-!
Texts as codes. UTF-16 units and UTF-8 bytes both tell where a character begins (`SelfSynchronizing`), so one text
begins another one if its code does, different texts have different codes, and a text occurs in another one nowhere but
where its characters do: the first place among units, the first place among bytes and the first place among characters
are one place (`SelfSynchronizing.firstAt_iff`).
-/
namespace LatentExpr

/-! ### The first place -/

section
variable {α : Type} {needle text : List α} {x : α} {i j : Nat}

/-- The first place at which one list occurs in another one. -/
def FirstAt (needle text : List α) (i : Nat) : Prop :=
  needle <+: text.drop i ∧ ∀ j < i, ¬ needle <+: text.drop j

theorem FirstAt.unique (hi : FirstAt needle text i) (hj : FirstAt needle text j) : i = j := by
  rcases Nat.lt_trichotomy i j with hlt | heq | hlt
  · exact absurd hi.1 (hj.2 i hlt)
  · exact heq
  · exact absurd hj.1 (hi.2 j hlt)

theorem firstAt_zero_iff : FirstAt needle text 0 ↔ needle <+: text :=
  ⟨fun h => h.1, fun h => ⟨h, fun _ hj => absurd hj (Nat.not_lt_zero _)⟩⟩

theorem firstAt_cons_succ_iff :
    FirstAt needle (x :: text) (i + 1) ↔ ¬ needle <+: x :: text ∧ FirstAt needle text i := by
  constructor
  · rintro ⟨hoccurs, hfirst⟩
    exact ⟨hfirst 0 (Nat.succ_pos i), hoccurs, fun j hj => hfirst (j + 1) (Nat.succ_lt_succ hj)⟩
  · rintro ⟨hno, hoccurs, hfirst⟩
    refine ⟨hoccurs, fun j hj => ?_⟩
    cases j with
    | zero => exact hno
    | succ j => exact hfirst j (Nat.lt_of_succ_lt_succ hj)

/-- Nothing occurs first of all at the beginning. -/
theorem FirstAt.eq_zero_of_nil (h : FirstAt [] text i) : i = 0 :=
  h.unique (firstAt_zero_iff.2 List.nil_prefix)

/-- What is found ends before the end. -/
theorem FirstAt.add_length_le (h : FirstAt needle text i) : i + needle.length ≤ text.length := by
  have hlength := h.1.length_le
  rw [List.length_drop] at hlength
  cases needle with
  | nil => simp [h.eq_zero_of_nil]
  | cons => rw [List.length_cons] at *; omega

/-- Where something occurs at all it occurs somewhere first. -/
theorem exists_firstAt (h : needle <+: text.drop i) : ∃ i, FirstAt needle text i := by
  classical
  have hsome : ∃ i, needle <+: text.drop i := ⟨i, h⟩
  exact ⟨Nat.find hsome, Nat.find_spec hsome, fun _ => Nat.find_min hsome⟩

end

/-! ### Codes -/

/-- A code of characters that tells where a character begins, and of which character one has read the code. -/
structure SelfSynchronizing {β : Type} (encode : Char → List β) (Starts : β → Prop) : Prop where
  starts : ∀ c, ∃ first others, encode c = first :: others ∧ Starts first ∧ ∀ u ∈ others, ¬ Starts u
  head_eq : ∀ {c d as bs}, encode c ++ as = encode d ++ bs → c = d

namespace SelfSynchronizing
variable {β : Type} {encode : Char → List β} {Starts : β → Prop} {s t p : List Char} {k : Nat}

theorem length_pos (hcode : SelfSynchronizing encode Starts) (c : Char) : 0 < (encode c).length := by
  obtain ⟨first, others, heq, -⟩ := hcode.starts c
  rw [heq]
  exact Nat.succ_pos _

/-- The code of a text begins the code of another one exactly if the text begins the other one. -/
theorem prefix_iff (hcode : SelfSynchronizing encode Starts) : t.flatMap encode <+: s.flatMap encode ↔ t <+: s := by
  constructor
  · intro h
    induction t generalizing s with
    | nil => exact List.nil_prefix
    | cons c t ih =>
      obtain ⟨rest, hrest⟩ := h
      rw [List.flatMap_cons, List.append_assoc] at hrest
      cases s with
      | nil =>
        have hlength := congrArg List.length hrest
        rw [List.length_append, List.flatMap_nil, List.length_nil] at hlength
        exact absurd hlength (by have := hcode.length_pos c; omega)
      | cons d s =>
        rw [List.flatMap_cons] at hrest
        obtain rfl := hcode.head_eq hrest
        exact List.cons_prefix_cons.2 ⟨rfl, ih ⟨rest, List.append_cancel_left hrest⟩⟩
  · rintro ⟨rest, rfl⟩
    exact ⟨rest.flatMap encode, (List.flatMap_append).symm⟩

theorem injective (hcode : SelfSynchronizing encode Starts) (h : t.flatMap encode = s.flatMap encode) : t = s :=
  (hcode.prefix_iff.1 (h ▸ List.prefix_refl _)).eq_of_length_le
    (hcode.prefix_iff.1 (h ▸ List.prefix_refl (s.flatMap encode))).length_le

theorem length_lt (hcode : SelfSynchronizing encode Starts) (hp : p <+: s) (hlt : p.length < s.length) :
    (p.flatMap encode).length < (s.flatMap encode).length := by
  obtain ⟨rest, rfl⟩ := hp
  cases rest with
  | nil => simp at hlt
  | cons c rest =>
    have := hcode.length_pos c
    rw [List.flatMap_append, List.length_append, List.flatMap_cons, List.length_append]
    omega

theorem drop_length (hp : p <+: s) :
    (s.flatMap encode).drop (p.flatMap encode).length = (s.drop p.length).flatMap encode := by
  obtain ⟨rest, rfl⟩ := hp
  rw [List.flatMap_append, List.drop_left, List.drop_left]

/-- Where the code of a text occurs the text occurs. -/
theorem exists_prefix_of_occurs (hcode : SelfSynchronizing encode Starts) (hne : t ≠ [])
    (h : t.flatMap encode <+: (s.flatMap encode).drop k) :
    ∃ p, p <+: s ∧ k = (p.flatMap encode).length ∧ t <+: s.drop p.length := by
  induction s generalizing k with
  | nil =>
    rw [List.flatMap_nil, List.drop_nil] at h
    have hnil : t <+: [] := hcode.prefix_iff.1 h
    exact absurd (List.prefix_nil.1 hnil) hne
  | cons c s ih =>
    rcases Nat.eq_zero_or_pos k with rfl | hpos
    · exact ⟨[], List.nil_prefix, rfl, hcode.prefix_iff.1 h⟩
    rw [List.flatMap_cons, List.drop_append] at h
    by_cases hinside : k < (encode c).length
    · -- inside of a character no other one begins
      obtain ⟨first, others, hc, -, hothers⟩ := hcode.starts c
      obtain ⟨d, more, rfl⟩ := List.exists_cons_of_ne_nil hne
      obtain ⟨start, rest, hd, hstart, -⟩ := hcode.starts d
      rw [List.flatMap_cons, hd] at h
      obtain ⟨after, hafter⟩ := h
      have hmem : start ∈ (encode c).drop k := by
        have hfront : (encode c).drop k ≠ [] := by simpa using hinside
        have hhead := congrArg List.head? hafter
        rw [List.head?_append_of_ne_nil _ hfront] at hhead
        exact List.mem_of_mem_head? hhead.symm
      obtain ⟨inner, rfl⟩ := Nat.exists_eq_succ_of_ne_zero hpos.ne'
      rw [hc] at hmem
      exact absurd hstart (hothers _ (List.mem_of_mem_drop hmem))
    · rw [List.drop_eq_nil_of_le (Nat.le_of_not_lt hinside), List.nil_append] at h
      obtain ⟨p, hp, hk, hoccurs⟩ := ih h
      refine ⟨c :: p, List.cons_prefix_cons.2 ⟨rfl, hp⟩, ?_, hoccurs⟩
      rw [List.flatMap_cons, List.length_append]
      omega

/-- The first place of a code is where the first place of the text is. -/
theorem firstAt_iff (hcode : SelfSynchronizing encode Starts) :
    FirstAt (t.flatMap encode) (s.flatMap encode) k ↔
      ∃ p, p <+: s ∧ k = (p.flatMap encode).length ∧ FirstAt t s p.length := by
  by_cases hne : t = []
  · subst hne
    constructor
    · intro h
      exact ⟨[], List.nil_prefix, h.eq_zero_of_nil, firstAt_zero_iff.2 List.nil_prefix⟩
    · rintro ⟨p, hp, rfl, hfirst⟩
      rw [List.length_eq_zero_iff.1 hfirst.eq_zero_of_nil]
      exact firstAt_zero_iff.2 List.nil_prefix
  constructor
  · rintro ⟨hoccurs, hfirst⟩
    obtain ⟨p, hp, rfl, ht⟩ := hcode.exists_prefix_of_occurs hne hoccurs
    refine ⟨p, hp, rfl, ht, fun j hj hearlier => ?_⟩
    have htake : s.take j <+: s := List.take_prefix j s
    have hlength : (s.take j).length = j := by
      have := hp.length_le
      rw [List.length_take]
      omega
    have hshorter : s.take j <+: p := List.prefix_of_prefix_length_le htake hp (by omega)
    refine hfirst _ (hcode.length_lt hshorter (by omega)) ?_
    rw [drop_length htake, hlength]
    exact hcode.prefix_iff.2 hearlier
  · rintro ⟨p, hp, rfl, ht, hfirst⟩
    refine ⟨?_, fun k hk hearlier => ?_⟩
    · rw [drop_length hp]
      exact hcode.prefix_iff.2 ht
    obtain ⟨p', hp', rfl, ht'⟩ := hcode.exists_prefix_of_occurs hne hearlier
    refine hfirst p'.length (Nat.lt_of_not_le fun hle => ?_) ht'
    rcases hle.lt_or_eq with hlt | heq
    · exact absurd (hcode.length_lt (List.prefix_of_prefix_length_le hp hp' hle) hlt) (by omega)
    · rw [(List.prefix_of_prefix_length_le hp hp' hle).eq_of_length heq] at hk
      exact absurd hk (lt_irrefl _)

end SelfSynchronizing

/-! ### Units and bytes -/

namespace Text

/-- A unit that is the second half of a pair. -/
def IsLowHalf (unit : Nat) : Prop := 0xDC00 ≤ unit ∧ unit ≤ 0xDFFF

theorem not_surrogate (c : Char) : c.toNat < 0xD800 ∨ 0xDFFF < c.toNat ∧ c.toNat < 0x110000 := c.valid

/-- A character is one unit, which is no half of a pair, or a pair. -/
theorem charUnits_cases (c : Char) :
    (charUnits c = [c.toNat] ∧ c.toNat < 0x10000 ∧ (c.toNat < 0xD800 ∨ 0xDFFF < c.toNat)) ∨
      ∃ high low, charUnits c = [high, low] ∧ 0xD800 ≤ high ∧ high ≤ 0xDBFF ∧ IsLowHalf low ∧
        c.toNat = 0x10000 + (high - 0xD800) * 0x400 + (low - 0xDC00) := by
  have hvalid := not_surrogate c
  unfold charUnits IsLowHalf
  dsimp only
  split
  · exact .inl ⟨rfl, by omega, by omega⟩
  · exact .inr ⟨_, _, rfl, by omega, by omega, by omega, by omega⟩

theorem selfSynchronizing_charUnits : SelfSynchronizing charUnits fun unit => ¬ IsLowHalf unit where
  starts c := by
    rcases charUnits_cases c with ⟨heq, hsmall, hwhole⟩ | ⟨high, low, heq, hhigh, hle, hlow, -⟩
    · exact ⟨_, _, heq, by unfold IsLowHalf; omega, nofun⟩
    · refine ⟨_, _, heq, by unfold IsLowHalf; omega, ?_⟩
      exact List.forall_mem_singleton.2 (not_not.2 hlow)
  head_eq {c d as bs} h := by
    apply Char.toNat_inj.1
    rcases charUnits_cases c with ⟨hc, -, hwhole⟩ | ⟨high, low, hc, hhigh, hle, ⟨hlow, hlow'⟩, hcode⟩ <;>
      rcases charUnits_cases d with ⟨hd, -, hwhole'⟩ | ⟨high', low', hd, hhigh', hle', ⟨hlow'', hlow'''⟩, hcode'⟩ <;>
      rw [hc, hd] at h <;> simp only [List.cons_append, List.nil_append, List.cons.injEq] at h
    · exact h.1
    · omega
    · omega
    · rw [hcode, hcode', h.1, h.2.1]

end Text

theorem selfSynchronizing_utf8 : SelfSynchronizing String.utf8EncodeChar fun b => ¬ Lexer.Continues b where
  starts c := by
    obtain ⟨first, others, heq, hfirst, hothers⟩ := Lexer.continues_encode c
    exact ⟨first, others, heq, hfirst, fun b hb => not_not.2 (hothers b hb)⟩
  head_eq := Matcher.head_eq_of_encode_append_eq

end LatentExpr
