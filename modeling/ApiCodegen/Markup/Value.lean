import ApiCodegen.Numeric.Layout

/-!
# Values

What the scalars and collections of a text mean.

* `Number`, `Value`: the values.
* `Value.untag`: a value without its outer tags; the views `entries?`, `string?`, `bool?`, … and
  `get?` look through tags.
* `Value.same`: equality of values as keys.
-/

namespace ApiCodegen.Markup

open Numeric

/-- A number: whole or binary floating-point. -/
inductive Number where
  | whole (n : Int)
  | real (x : Binary64)
  deriving DecidableEq

namespace Number

/-- The text of a number. -/
def text : Number → String
  | .whole n => toString n
  | .real x => document.text x

/-- Equality of numbers as keys. -/
def same : Number → Number → Bool
  | .whole m, .whole n => m == n
  | .real x, .real y => x.sameKey y
  | _, _ => false

/-- The nearest floating-point number. -/
def toReal : Number → Binary64
  | .whole n => .ofInt n
  | .real x => x

end Number

/-- A value. The tag of a tagged value is held without its exclamation mark. -/
inductive Value where
  | null
  | bool (b : Bool)
  | number (n : Number)
  | string (s : String)
  | sequence (items : List Value)
  | mapping (entries : List (Value × Value))
  | tagged (tag : String) (inner : Value)

instance : Inhabited Value := ⟨.null⟩

/-- The entries of a mapping, in order. -/
abbrev Entries := List (Value × Value)

namespace Value

mutual

/-- Equality of values as keys: the order of a mapping does not matter. -/
def same : Value → Value → Bool
  | .null, .null => true
  | .bool a, .bool b => a == b
  | .number m, .number n => m.same n
  | .string s, .string t => s == t
  | .sequence xs, .sequence ys => sameItems xs ys
  | .mapping xs, .mapping ys => xs.length == ys.length && sameEntries xs ys
  | .tagged t x, .tagged u y => t == u && same x y
  | _, _ => false

/-- Equality item by item. -/
def sameItems : List Value → List Value → Bool
  | [], [] => true
  | x :: xs, y :: ys => same x y && sameItems xs ys
  | _, _ => false

/-- Every entry of the first list occurs in the second. -/
def sameEntries : List (Value × Value) → List (Value × Value) → Bool
  | [], _ => true
  | (k, v) :: more, ys => ys.any (fun (l, w) => same k l && same v w) && sameEntries more ys

end

/-- A value without its outer tags. -/
def untag : Value → Value
  | .tagged _ inner => inner.untag
  | v => v

/-- The entries of a mapping. -/
def entries? (v : Value) : Option Entries :=
  match v.untag with
  | .mapping entries => some entries
  | _ => none

/-- The text of a string. -/
def string? (v : Value) : Option String :=
  match v.untag with
  | .string s => some s
  | _ => none

/-- The truth value of a boolean. -/
def bool? (v : Value) : Option Bool :=
  match v.untag with
  | .bool b => some b
  | _ => none

/-- The number nearest to a numeric value. -/
def real? (v : Value) : Option Binary64 :=
  match v.untag with
  | .number n => some n.toReal
  | _ => none

/-- The natural number of a numeric value. -/
def nat? (v : Value) : Option Nat :=
  match v.untag with
  | .number (.whole n) => if 0 ≤ n then some n.toNat else none
  | _ => none

/-- Whether a value is null, perhaps with tags. -/
def isNull (v : Value) : Bool :=
  match v.untag with
  | .null => true
  | _ => false

/-- The text of a value as a name: a string, a number or a boolean without a tag. -/
def name? : Value → Option String
  | .string s => some s
  | .number n => some n.text
  | .bool b => some (if b then "true" else "false")
  | _ => none

end Value

/-- The value of a string key. -/
def Entries.get? (entries : Entries) (key : String) : Option Value :=
  match entries with
  | [] => none
  | (k, v) :: more =>
    match k with
    | .string s => if s = key then some v else Entries.get? more key
    | _ => Entries.get? more key

/-- The value of a string key in a mapping. -/
def Value.get? (v : Value) (key : String) : Option Value := v.entries?.bind (Entries.get? · key)

theorem Entries.sizeOf_get? {entries : Entries} {key : String} {v : Value}
    (h : entries.get? key = some v) : sizeOf v < sizeOf entries := by
  induction entries with
  | nil => simp [Entries.get?] at h
  | cons entry more ih =>
    obtain ⟨k, w⟩ := entry
    have hw : sizeOf w < sizeOf ((k, w) :: more) := by
      simp only [List.cons.sizeOf_spec, Prod.mk.sizeOf_spec]; omega
    have hm : sizeOf more < sizeOf ((k, w) :: more) := by
      simp only [List.cons.sizeOf_spec]; omega
    unfold Entries.get? at h
    split at h
    · split at h
      · rw [← Option.some.inj h]; exact hw
      · exact Nat.lt_trans (ih h) hm
    · exact Nat.lt_trans (ih h) hm

theorem Value.sizeOf_untag (v : Value) : sizeOf v.untag ≤ sizeOf v := by
  fun_induction Value.untag v with
  | case1 tag inner ih => simp only [Value.tagged.sizeOf_spec]; omega
  | case2 v h => exact Nat.le_refl _

theorem Value.sizeOf_entries? {v : Value} {entries : Entries} (h : v.entries? = some entries) :
    sizeOf entries < sizeOf v := by
  have hu := v.sizeOf_untag
  unfold Value.entries? at h
  split at h
  · rename_i e he
    rw [he, Value.mapping.sizeOf_spec] at hu
    rw [← Option.some.inj h]; omega
  · cases h

end ApiCodegen.Markup
