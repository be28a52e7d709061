import Mathlib.Data.List.Basic

/-!
# Stacks that are addressed from the top

Every value of the stack is kept with the purpose that it was pushed for, and the stack remembers whether every value
that was read from a position so far is one that was pushed for what it was read for.
-/

namespace Viriatum.Library

structure Slot (π α : Type) where
  purpose : π
  value : α
deriving DecidableEq, Repr

/-- A stack, with the top of it first. -/
structure Slots (π α : Type) where
  slots : List (Slot π α) := []
  proper : Bool := true
deriving DecidableEq, Repr

namespace Slots

variable {π α : Type} (stack : Slots π α)

def depth : Nat := stack.slots.length

def push (purpose : π) (value : α) : Slots π α := { stack with slots := ⟨purpose, value⟩ :: stack.slots }

/-- Takes values off the top; there are to be as many. -/
def pop (count : Nat) : Slots π α :=
  { slots := stack.slots.drop count, proper := stack.proper && decide (count ≤ stack.slots.length) }

/-- Reads the value at a position, counted from one at the top, for one of the purposes. -/
def read [DecidableEq π] (position : Nat) (purposes : List π) : Slots π α :=
  { stack with
    proper := stack.proper &&
      (stack.slots[position - 1]?.elim false fun slot => decide (slot.purpose ∈ purposes)) }

def at? (position : Nat) : Option α := (stack.slots[position - 1]?).map Slot.value

/-- Takes out the value at a position, the ones above it coming down. -/
def remove (position : Nat) : Slots π α := { stack with slots := stack.slots.eraseIdx (position - 1) }

/-- Puts a value in the place of another. -/
def replace (position : Nat) (purpose : π) (value : α) : Slots π α :=
  { stack with slots := stack.slots.set (position - 1) ⟨purpose, value⟩ }

/-- Reads the values at the top, as many as are told, and takes them off. -/
def take [DecidableEq π] (count : Nat) (purpose : π) : Slots π α :=
  { slots := stack.slots.drop count,
    proper := stack.proper && decide (count ≤ stack.slots.length) &&
      (stack.slots.take count).all fun slot => decide (slot.purpose = purpose) }

/-! ## What the operations do on a stack that is told -/

variable {slots : List (Slot π α)} {proper : Bool}

@[simp] theorem push_mk (purpose : π) (value : α) :
    (⟨slots, proper⟩ : Slots π α).push purpose value = ⟨⟨purpose, value⟩ :: slots, proper⟩ := rfl

@[simp] theorem pop_mk (count : Nat) :
    (⟨slots, proper⟩ : Slots π α).pop count = ⟨slots.drop count, proper && decide (count ≤ slots.length)⟩ := rfl

@[simp] theorem read_mk [DecidableEq π] (position : Nat) (purposes : List π) :
    (⟨slots, proper⟩ : Slots π α).read position purposes =
      ⟨slots, proper && (slots[position - 1]?.elim false fun slot => decide (slot.purpose ∈ purposes))⟩ := rfl

@[simp] theorem at?_mk (position : Nat) :
    (⟨slots, proper⟩ : Slots π α).at? position = (slots[position - 1]?).map Slot.value := rfl

@[simp] theorem remove_mk (position : Nat) :
    (⟨slots, proper⟩ : Slots π α).remove position = ⟨slots.eraseIdx (position - 1), proper⟩ := rfl

@[simp] theorem replace_mk (position : Nat) (purpose : π) (value : α) :
    (⟨slots, proper⟩ : Slots π α).replace position purpose value =
      ⟨slots.set (position - 1) ⟨purpose, value⟩, proper⟩ := rfl

@[simp] theorem take_mk [DecidableEq π] (count : Nat) (purpose : π) :
    (⟨slots, proper⟩ : Slots π α).take count purpose =
      ⟨slots.drop count, proper && decide (count ≤ slots.length) &&
        (slots.take count).all fun slot => decide (slot.purpose = purpose)⟩ := rfl

end Slots

end Viriatum.Library
