import Mathlib.Data.List.Basic

/-! # Where characters come from

Programs on text that are written for any kind of symbol, of which they only see the byte, and
which they make from bytes of their own. A run on marked symbols shows where each character of a
result comes from; it is the run on bytes with marks, since every access to a buffer is the same
on both (`Trunk.Provenance.put_erase`, `Trunk.Provenance.cstring_erase`).

Buffers are lists of cells. An access outside a buffer is a fault.
-/

namespace Trunk.Provenance

/-- A kind of character. -/
class Glyph (α : Type) where
  byte : α → UInt8
  literal : UInt8 → α
  byte_literal : ∀ value, byte (literal value) = value

attribute [simp] Glyph.byte_literal

instance : Glyph UInt8 := ⟨id, id, fun _ => rfl⟩

/-- A byte with the number of its source, if it has one. -/
structure Mark where
  byte : UInt8
  source : Option Nat
  deriving DecidableEq, Repr

instance : Glyph Mark := ⟨Mark.byte, fun value => ⟨value, none⟩, fun _ => rfl⟩

/-- An access outside a buffer. -/
inductive Fault where
  | read
  | write
  deriving DecidableEq, Repr

variable {α : Type} [Glyph α]

open Glyph

/-- The bytes of symbols. -/
def erase (symbols : List α) : List UInt8 := symbols.map byte

/-- The first symbol. -/
def peek : List α → Except Fault α
  | [] => .error .read
  | symbol :: _ => .ok symbol

/-- A buffer with one cell written. -/
def put (buffer : List α) (index : Nat) (symbol : α) : Except Fault (List α) :=
  if index < buffer.length then .ok (buffer.set index symbol) else .error .write

/-- The string in a buffer, up to its terminator. -/
def cstring (buffer : List α) : Except Fault (List α) :=
  if buffer.any fun symbol => byte symbol = 0 then
    .ok (buffer.takeWhile fun symbol => byte symbol ≠ 0)
  else .error .read

/-- A string copied to a buffer of a size. -/
def memcpy (size : Nat) (string : List α) : Except Fault (List α) :=
  if string.length ≤ size then .ok string else .error .write

@[simp] theorem erase_nil : erase ([] : List α) = [] := rfl

@[simp] theorem erase_cons (symbol : α) (symbols : List α) :
    erase (symbol :: symbols) = byte symbol :: erase symbols := rfl

@[simp] theorem erase_length (symbols : List α) : (erase symbols).length = symbols.length :=
  List.length_map ..

theorem erase_tail (symbols : List α) : erase symbols.tail = (erase symbols).tail :=
  List.map_tail ..

@[simp] theorem byte_id (value : UInt8) : byte value = value := rfl

@[simp] theorem literal_id (value : UInt8) : (literal value : UInt8) = value := rfl

theorem peek_erase (symbols : List α) : peek (erase symbols) = (peek symbols).map byte := by
  cases symbols with
  | nil => rfl
  | cons symbol symbols => rfl

theorem put_erase (buffer : List α) (index : Nat) (symbol : α) :
    put (erase buffer) index (byte symbol) = (put buffer index symbol).map erase := by
  unfold put
  rw [erase_length]
  split
  · exact congrArg Except.ok List.map_set.symm
  · rfl

theorem put_literal_erase (buffer : List α) (index : Nat) (value : UInt8) :
    put (erase buffer) index (literal value) = (put buffer index (literal value)).map erase := by
  rw [← put_erase, byte_literal]
  rfl

/-- Programs whose parts agree under maps agree. -/
theorem bind_erase {A A' B B' : Type} {onPart : A → A'} {onWhole : B → B'}
    {part : Except Fault A} {part' : Except Fault A'} {next : A → Except Fault B}
    {next' : A' → Except Fault B'} (first : part' = part.map onPart)
    (second : ∀ value, next' (onPart value) = (next value).map onWhole) :
    (part' >>= next') = (part >>= next).map onWhole := by
  subst first
  cases part with
  | error fault => rfl
  | ok value => exact second value

theorem cstring_erase (buffer : List α) : cstring (erase buffer) = (cstring buffer).map erase := by
  unfold cstring
  simp only [erase, List.any_map, List.takeWhile_map, Function.comp_def, byte_id]
  split <;> rfl

theorem memcpy_erase (size : Nat) (string : List α) :
    memcpy size (erase string) = (memcpy size string).map erase := by
  unfold memcpy
  rw [erase_length]
  split <;> rfl

omit [Glyph α] in
theorem peek_eq_ok {buf : List α} {c : α} : peek buf = .ok c ↔ ∃ text, buf = c :: text := by
  cases buf with
  | nil => exact ⟨nofun, nofun⟩
  | cons first text =>
      refine ⟨fun seen => ⟨text, by rw [Except.ok.inj seen]⟩, fun found => ?_⟩
      obtain ⟨_, same⟩ := found
      rw [(List.cons.inj same).1]
      rfl

omit [Glyph α] in
theorem put_inside {buffer : List α} {index : Nat} (inside : index < buffer.length) (symbol : α) :
    put buffer index symbol = .ok (buffer.set index symbol) :=
  if_pos inside

omit [Glyph α] in
theorem put_eq_ok {buffer buffer' : List α} {index : Nat} {symbol : α} :
    put buffer index symbol = .ok buffer' ↔
      index < buffer.length ∧ buffer.set index symbol = buffer' := by
  unfold put
  split
  · rename_i inside
    simp only [Except.ok.injEq, inside, true_and]
  · rename_i outside
    simp only [reduceCtorEq, outside, false_and]

/-- A program that does not fail has parts that do not. -/
theorem bind_eq_ok {A B : Type} {part : Except Fault A} {next : A → Except Fault B} {result : B} :
    (part >>= next) = .ok result ↔ ∃ value, part = .ok value ∧ next value = .ok result := by
  cases part with
  | error fault => exact ⟨nofun, nofun⟩
  | ok value =>
      refine ⟨fun done => ⟨value, rfl, done⟩, fun both => ?_⟩
      obtain ⟨_, same, done⟩ := both
      obtain rfl := Except.ok.inj same
      exact done

end Trunk.Provenance
