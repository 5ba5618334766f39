import LatentExpr.Text.Quoted

/-!
Names and the interner that makes equal names share one storage.
-/
namespace LatentExpr

/-- Where the text of a name is stored: in a slot of an interner, or on its own. -/
inductive Storage where
  | slot (index : Nat)
  | own (serial : Nat)
deriving DecidableEq

/-- A text with a storage. Names are equal when their texts are; they are the same name when their
storage is. -/
structure Name where
  text : String
  storage : Storage
deriving DecidableEq

namespace Name

def sharesStorage (a b : Name) : Bool := a.storage = b.storage

def toText (n : Name) : String := "Name(" ++ Text.quoted n.text ++ ")"

end Name

/-- The texts met so far, in the order of their first occurrence. The place of a text is its slot. -/
structure Interner where
  texts : List String
deriving DecidableEq

namespace Interner

def empty : Interner := ⟨[]⟩

def size (i : Interner) : Nat := i.texts.length

def isEmpty (i : Interner) : Bool := i.texts.isEmpty

/-- The name of a text that has been met. -/
def lookup? (i : Interner) (text : String) : Option Name :=
  (i.texts.idxOf? text).map fun index => ⟨text, .slot index⟩

theorem isSome_lookup? (i : Interner) (text : String) :
    (i.lookup? text).isSome ↔ text ∈ i.texts := by
  simp [lookup?, List.isSome_idxOf?]

theorem text_of_lookup? {i : Interner} {text : String} {name : Name}
    (h : i.lookup? text = some name) : name.text = text := by
  obtain ⟨index, _, rfl⟩ := Option.map_eq_some_iff.1 h
  rfl

/-- The name of a text, which takes the next slot if it has not been met. -/
def intern (i : Interner) (text : String) : Name × Interner :=
  match i.lookup? text with
  | some name => (name, i)
  | none => (⟨text, .slot i.size⟩, ⟨i.texts ++ [text]⟩)

theorem text_intern (i : Interner) (text : String) : (i.intern text).1.text = text := by
  unfold intern
  split
  · rename_i name h
    exact text_of_lookup? h
  · rfl

theorem texts_intern (i : Interner) (text : String) :
    (i.intern text).2.texts = if text ∈ i.texts then i.texts else i.texts ++ [text] := by
  unfold intern
  split
  · rename_i name h
    rw [if_pos ((isSome_lookup? i text).1 (by rw [h]; rfl))]
  · rename_i h
    rw [if_neg fun hm => by simpa [h] using (isSome_lookup? i text).2 hm]

def toText (i : Interner) : String := "Interner \x7b len: " ++ toString i.size ++ " \x7d"

end Interner

end LatentExpr
