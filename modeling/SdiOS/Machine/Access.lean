import SdiOS.Machine.Blocks

/-!
# Programs and the memory they touch

A program over memory, described by its effect: the value it returns, the memory it leaves, and
the blocks it reads and writes on the way, in order. Running one program after another joins
their effects. A program is framed when it changes nothing outside the blocks it writes.
-/

namespace Machine

variable {w : ℕ} {α β : Type}

/-- What a program does from a given memory. -/
structure Effect (w : ℕ) (α : Type) where
  value : α
  mem : Memory w
  reads : List (Block w)
  writes : List (Block w)

/-- A program over the memory of a `w`-bit machine. -/
def Access (w : ℕ) (α : Type) := Memory w → Effect w α

instance : Monad (Access w) where
  pure x := fun m => ⟨x, m, [], []⟩
  bind c k := fun m =>
    let e := c m
    let e' := k e.value e.mem
    ⟨e'.value, e'.mem, e.reads ++ e'.reads, e.writes ++ e'.writes⟩

/-- A value is returned without touching memory. -/
@[simp] theorem pure_access (x : α) (m : Memory w) : (pure x : Access w α) m = ⟨x, m, [], []⟩ := rfl

/-- The second program runs in the memory that the first one leaves. -/
theorem bind_access (c : Access w α) (k : α → Access w β) (m : Memory w) :
    (c >>= k) m = ⟨(k (c m).value (c m).mem).value, (k (c m).value (c m).mem).mem,
      (c m).reads ++ (k (c m).value (c m).mem).reads,
      (c m).writes ++ (k (c m).value (c m).mem).writes⟩ := rfl

/-- A program changes nothing outside the blocks it writes. -/
def Access.Framed (c : Access w α) : Prop :=
  ∀ m a, (∀ b ∈ (c m).writes, a ∉ b.bytes) → (c m).mem a = m a

/-- Returning a value changes nothing. -/
theorem Access.Framed.pure (x : α) : (Pure.pure x : Access w α).Framed := fun _ _ _ => rfl

/-- Framed programs in sequence are framed. -/
theorem Access.Framed.bind {c : Access w α} {k : α → Access w β} (hc : c.Framed)
    (hk : ∀ x, (k x).Framed) : (c >>= k).Framed := by
  intro m a hout
  rw [bind_access] at hout ⊢
  rw [List.forall_mem_append] at hout
  exact (hk _ _ a hout.2).trans (hc m a hout.1)

/-- A choice between framed programs is framed. -/
theorem Access.Framed.ite {p : Prop} [Decidable p] {c d : Access w α} (hc : c.Framed)
    (hd : d.Framed) : (if p then c else d).Framed := by
  split
  · exact hc
  · exact hd

/-- An effect reads inside one set of addresses and writes inside another. -/
structure Effect.Within (e : Effect w α) (R W : Set (BitVec w)) : Prop where
  reads : ∀ b ∈ e.reads, b.bytes ⊆ R
  writes : ∀ b ∈ e.writes, b.bytes ⊆ W

/-- Memory that an effect does not write is as it was. -/
theorem Access.Framed.eqOn {c : Access w α} (hc : c.Framed) {m : Memory w}
    {R W S : Set (BitVec w)} (hwithin : (c m).Within R W) (hdisj : Disjoint S W) :
    Set.EqOn (c m).mem m S := fun a ha => hc m a fun b hb hmem =>
  Set.disjoint_left.mp hdisj ha (hwithin.writes b hb hmem)

/-! ## Fields of records -/

/-- The width of a field: one, two or four bytes. -/
inductive Width
  | byte
  | half
  | word
  deriving DecidableEq

/-- The number of bytes of a field. -/
def Width.bytes : Width → ℕ
  | .byte => 1
  | .half => 2
  | .word => 4

/-- A field of a record that lies in memory. -/
structure Field (w : ℕ) where
  offset : BitVec w
  width : Width
  deriving DecidableEq

/-- The bytes of a field, in the record at `base`. -/
def Field.block (f : Field w) (base : BitVec w) : Block w := ⟨base + f.offset, f.width.bytes⟩

/-- A field that lies inside the record takes its bytes from the record. -/
theorem Field.block_subset (f : Field w) (base : BitVec w) {n : ℕ}
    (h : f.offset.toNat + f.width.bytes ≤ n := by decide) : (f.block base).bytes ⊆ span base n :=
  sub_span_add base f.offset h

/-- The unsigned number that a field holds, least significant byte first. -/
def Memory.field (m : Memory w) (base : BitVec w) (f : Field w) : BitVec 32 :=
  match f.width with
  | .byte => (m (base + f.offset)).setWidth 32
  | .half => (m.load16 (base + f.offset)).setWidth 32
  | .word => m.load32 (base + f.offset)

/-- A field depends on its own bytes only. -/
theorem field_congr {m m' : Memory w} {base : BitVec w} {f : Field w}
    (h : Set.EqOn m m' (f.block base).bytes) : m.field base f = m'.field base f := by
  obtain ⟨offset, width⟩ := f
  cases width with
  | byte => exact congrArg (BitVec.setWidth 32) (h (self_mem_span _ Nat.one_pos))
  | half => exact congrArg (BitVec.setWidth 32) (load16_congr h)
  | word => exact load32_congr h

/-- Read one field. -/
def fetch (base : BitVec w) (f : Field w) : Access w (BitVec 32) := fun m =>
  ⟨m.field base f, m, [f.block base], []⟩

/-- A fetch reads the bytes of its field and writes nothing. -/
theorem fetch_access (base : BitVec w) (f : Field w) (m : Memory w) :
    fetch base f m = ⟨m.field base f, m, [f.block base], []⟩ := rfl

/-- A program that starts with a fetch goes on with the number it has read. -/
theorem fetch_bind (base : BitVec w) (f : Field w) (k : BitVec 32 → Access w α) (m : Memory w) :
    (fetch base f >>= k) m = { k (m.field base f) m with
      reads := f.block base :: (k (m.field base f) m).reads } := rfl

/-- A fetch changes nothing. -/
theorem Access.Framed.fetch (base : BitVec w) (f : Field w) : (fetch base f).Framed :=
  fun _ _ _ => rfl

end Machine
