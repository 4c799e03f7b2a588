import Sm83.Proofs.Footprint

/-!
Units that store: a read answers the byte that was last written there and disturbs nothing. What such a unit holds is
seen by a function from addresses to bytes, and words, operands and the stack are told in terms of it.
-/

set_option autoImplicit false

namespace Sm83

variable {μ : Type} [Bus μ]

/-- A view of all the bytes of a unit: what is seen is read, and what is written is seen. -/
structure Bus.Stores (look : μ → Word → Byte) : Prop extends Bus.View look where
  value : ∀ m a, (Bus.read m a).1 = look m a
  stored : ∀ m a v, look (Bus.write m a v) a = v

theorem Ram.stores_get : Bus.Stores Ram.get where
  toView := view_get
  value _ _ := rfl
  stored m a v := by simp [get_set]

theorem Word.add_one_ne (a : Word) : a + 1 ≠ a := by
  intro h
  have hn := congrArg UInt16.toNat h
  have ha := a.toNat_lt
  simp only [UInt16.toNat_add, UInt16.toNat_one] at hn
  omega

namespace Bus.Stores

variable {look : μ → Word → Byte}

theorem look_write (store : Bus.Stores look) (m : μ) (a b : Word) (v : Byte) :
    look (Bus.write m a v) b = if a = b then v else look m b := by
  split
  next h => rw [← h, store.stored]
  next h => rw [store.write m a b v h]

theorem fst_readWord (store : Bus.Stores look) (m : μ) (a : Word) :
    (Bus.readWord m a).1 = .ofBytes (look m (a + 1)) (look m a) := by
  simp only [Bus.readWord, store.value, store.read]

theorem look_readWord (store : Bus.Stores look) (m : μ) (a b : Word) :
    look (Bus.readWord m a).2 b = look m b := by
  simp only [Bus.readWord, store.read]

theorem look_writeWord (store : Bus.Stores look) (m : μ) (a v b : Word) :
    look (Bus.writeWord m a v) b = if a + 1 = b then v.high else if a = b then v.low else look m b := by
  simp only [Bus.writeWord, store.look_write]

/-- A word comes back, also from the last address, where its halves are apart. -/
theorem fst_readWord_writeWord (store : Bus.Stores look) (m : μ) (a v : Word) :
    (Bus.readWord (Bus.writeWord m a v) a).1 = v := by
  rw [store.fst_readWord, store.look_writeWord, store.look_writeWord, if_pos rfl, if_neg a.add_one_ne, if_pos rfl,
    Word.ofBytes_high_low]

theorem look_fetch (store : Bus.Stores look) (f : Form) (m : μ) (a b : Word) :
    look (f.fetch m a).2 b = look m b := by
  cases f with
  | hole | inherent i => rfl
  | byte i => exact store.read m a b
  | word i => exact store.look_readWord m a b

end Bus.Stores

end Sm83
