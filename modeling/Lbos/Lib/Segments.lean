import Mathlib.Tactic.Common

/-! Segments and gates as a processor in protected mode reads them: the fields of a descriptor, the
descriptor behind a selector, what `iret` checks before it loads selectors, and the way of a vector
through the interrupt table. -/

namespace Lbos.Lib

/-- The eight bytes of a descriptor, the first one lowest. -/
abbrev Descriptor := BitVec 64

abbrev Selector := BitVec 16

/-- A privilege level. -/
abbrev Ring := BitVec 2

namespace Descriptor

variable (x : Descriptor)

/-! ### Segments -/

def base : BitVec 32 := x.extractLsb' 56 8 ++ x.extractLsb' 16 24

def limit : BitVec 20 := x.extractLsb' 48 4 ++ x.extractLsb' 0 16

def type : BitVec 4 := x.extractLsb' 40 4

/-- A code or data segment, as opposed to a gate or the segment of a task state. -/
def segment : Bool := x.getLsbD 44

def dpl : Ring := x.extractLsb' 45 2

def present : Bool := x.getLsbD 47

def wide : Bool := x.getLsbD 54

def granular : Bool := x.getLsbD 55

/-- The last offset that the limit allows. -/
def last : Nat := if x.granular then x.limit.toNat * 4096 + 4095 else x.limit.toNat

/-- A code segment that code of another level does not enter unchanged. -/
def code : Bool := x.segment && x.type.getLsbD 3 && !x.type.getLsbD 2

def writable : Bool := x.segment && !x.type.getLsbD 3 && x.type.getLsbD 1

/-- The segment is present, begins at 0 and is as large as the address space. -/
structure Flat : Prop where
  present : x.present = true
  base : x.base = 0
  last : x.last = 0xFFFFFFFF
  wide : x.wide = true

/-! ### Gates -/

def offset : BitVec 32 := x.extractLsb' 48 16 ++ x.extractLsb' 0 16

def selector : Selector := x.extractLsb' 16 16

/-- An interrupt or trap gate for 32-bit code. -/
def gate : Bool := !x.segment && x.type.extractLsb' 1 3 == 0b111

/-- The gate of an interrupt handler that further interrupts do not interrupt. -/
def masking : Bool := !x.type.getLsbD 0

end Descriptor

namespace Selector

variable (s : Selector)

def rpl : Ring := s.extractLsb' 0 2

def index : BitVec 13 := s.extractLsb' 3 13

/-- The selector is one of the global table. -/
def global : Bool := !s.getLsbD 2

end Selector

/-- A table of descriptors: its limit and its entries. -/
structure DescriptorTable where
  limit : BitVec 16
  entry : Nat → Descriptor

namespace DescriptorTable

variable (gdt idt : DescriptorTable)

def get (i : Nat) : Option Descriptor :=
  if i * 8 + 7 ≤ gdt.limit.toNat then some (gdt.entry i) else none

/-- The descriptor behind a selector of the global table; selector 0 has none. -/
def find (s : Selector) : Option Descriptor :=
  if s.index = 0 ∨ ¬s.global then none else gdt.get s.index.toNat

/-- Code at level `r` may run from the segment. -/
def CodeAt (s : Selector) (r : Ring) : Prop :=
  ∃ x, gdt.find s = some x ∧ x.code = true ∧ x.dpl = r ∧ x.present = true

/-- Code at level `r` may have its stack in the segment. -/
def StackAt (s : Selector) (r : Ring) : Prop :=
  s.rpl = r ∧ ∃ x, gdt.find s = some x ∧ x.writable = true ∧ x.dpl = r ∧ x.present = true

/-- `iret` at level `cpl` accepts the selectors: it does not go to an inner level, and takes a stack
segment when it goes to an outer one. -/
structure IretAllowed (cpl : Ring) (cs ss : Selector) : Prop where
  level : cpl ≤ cs.rpl
  code : gdt.CodeAt cs cs.rpl
  stack : cpl < cs.rpl → gdt.StackAt ss cs.rpl

end DescriptorTable

/-- Code at level `cpl` may use an I/O port: its level allows it, or the bit of the port is clear in the
map of the task state, whose two bytes around that bit lie before the segment's end. -/
def PortAllowed (cpl iopl : Ring) (last mapBase : Nat) (bit : Nat → Bool) (port : BitVec 16) : Prop :=
  cpl ≤ iopl ∨ mapBase + port.toNat / 8 + 1 ≤ last ∧ bit port.toNat = false

/-- What becomes of an interrupt: its handler is entered at a level, with further interrupts masked
or not, or the processor raises an exception instead. -/
inductive Delivery where
  | enters (offset : BitVec 32) (level : Ring) (masked : Bool)
  | fault (vector : Nat) (errorCode : BitVec 32)
  deriving DecidableEq

/-- The error code that names a vector. -/
def vectorError (n : Nat) : BitVec 32 := BitVec.ofNat 32 (n * 8 + 2)

/-- The way through the interrupt table at level `cpl`.  The level of the gate counts for the
instruction `int` only. -/
def deliver (gdt idt : DescriptorTable) (cpl : Ring) (instruction : Bool) (n : Nat) : Delivery :=
  match idt.get n with
  | none => .fault 13 (vectorError n)
  | some g =>
    if ¬g.gate then .fault 13 (vectorError n)
    else if instruction ∧ g.dpl < cpl then .fault 13 (vectorError n)
    else if ¬g.present then .fault 11 (vectorError n)
    else
      match gdt.find g.selector with
      | none => .fault 13 (g.selector.setWidth 32 &&& ~~~3)
      | some x =>
        if ¬(x.segment ∧ x.type.getLsbD 3) ∨ cpl < x.dpl then .fault 13 (g.selector.setWidth 32 &&& ~~~3)
        else if ¬x.present then .fault 11 (g.selector.setWidth 32 &&& ~~~3)
        else .enters g.offset (if x.code then x.dpl else cpl) g.masking

section Deliver

variable {gdt idt : DescriptorTable} {cpl : Ring} {n : Nat} {g x : Descriptor}

/-- A gate to a code segment of level 0 lets in what its own level allows. -/
theorem deliver_enters (hget : idt.get n = some g) (hgate : g.gate = true)
    (hpresent : g.present = true) (hcode : gdt.CodeAt g.selector 0) {instruction : Bool}
    (hlevel : instruction = true → cpl ≤ g.dpl) :
    deliver gdt idt cpl instruction n = .enters g.offset 0 g.masking := by
  obtain ⟨x, hfind, hx, hdpl, hp⟩ := hcode
  have hnot : ¬(instruction = true ∧ g.dpl < cpl) := fun h => absurd (hlevel h.1) (BitVec.not_le.mpr h.2)
  have hseg : x.segment = true ∧ x.type.getLsbD 3 = true := by
    simp only [Descriptor.code, Bool.and_eq_true] at hx
    exact hx.1
  have hin : ¬cpl < x.dpl := by
    rw [hdpl]
    exact BitVec.not_lt_zero
  simp [deliver, hget, hgate, hnot, hpresent, hfind, hseg, hp, hx, hdpl]

/-- Where the table has no gate, the processor raises a general protection fault. -/
theorem deliver_no_gate (h : ∀ g, idt.get n = some g → g.gate = false) (instruction : Bool) :
    deliver gdt idt cpl instruction n = .fault 13 (vectorError n) := by
  unfold deliver
  split
  · rfl
  · next g hget => simp [h g hget]

/-- A gate of an inner level refuses the instruction. -/
theorem deliver_refused (hget : idt.get n = some g) (hdpl : g.dpl < cpl) :
    deliver gdt idt cpl true n = .fault 13 (vectorError n) := by
  by_cases hgate : g.gate = true
  · simp [deliver, hget, hgate, hdpl]
  · simp [deliver, hget, hgate]

end Deliver

end Lbos.Lib
