/-
# Bytes at addresses

A memory, read and written in pieces. `Agree`: two memories have the same bytes in a range.

Key theorems: `read_write_self`, `word_writeWord`, `agree_write`.
-/
import Recovery.Lib.LittleEndian

namespace Memory

abbrev Mem := ℕ → UInt8

variable {m m' m'' : Mem} {a b k n : ℕ}

def read (m : Mem) (a n : ℕ) : List UInt8 := (List.range n).map fun i => m (a + i)

def write (m : Mem) (a : ℕ) (bs : List UInt8) : Mem := fun x => if a ≤ x then bs.getD (x - a) (m x) else m x

def word (m : Mem) (a : ℕ) : ℕ := LittleEndian.ofBytes (read m a 4)

def writeWord (m : Mem) (a v : ℕ) : Mem := write m a (LittleEndian.toBytes 4 v)

@[simp] theorem length_read (m : Mem) (a n : ℕ) : (read m a n).length = n := by simp [read]

theorem read_add (m : Mem) (a k n : ℕ) : read m a (k + n) = read m a k ++ read m (a + k) n := by
  simp [read, List.range_add, Nat.add_assoc]

def Agree (m m' : Mem) (a n : ℕ) : Prop := ∀ x, a ≤ x → x < a + n → m' x = m x

theorem Agree.trans (h : Agree m m' a n) (h' : Agree m' m'' a n) : Agree m m'' a n :=
  fun x hx hx' => (h' x hx hx').trans (h x hx hx')

theorem Agree.mono (h : Agree m m' a n) (hb : a ≤ b) (hk : b + k ≤ a + n) : Agree m m' b k :=
  fun x hx hx' => h x (by omega) (by omega)

theorem Agree.read_eq (h : Agree m m' a n) : read m' a n = read m a n := by
  refine List.map_congr_left fun i hi => h _ (by omega) ?_
  rw [List.mem_range] at hi
  omega

theorem Agree.word_eq (h : Agree m m' a 4) : word m' a = word m a := by rw [word, word, h.read_eq]

theorem agree_write {bs : List UInt8} (h : a + n ≤ b ∨ b + bs.length ≤ a) : Agree m (write m b bs) a n := by
  intro x hx hx'
  unfold write
  split_ifs with hb
  · rw [List.getD_eq_getElem?_getD, List.getElem?_eq_none (by omega), Option.getD_none]
  · rfl

theorem agree_writeWord {v : ℕ} (h : a + n ≤ b ∨ b + 4 ≤ a) : Agree m (writeWord m b v) a n :=
  agree_write (by simpa using h)

theorem read_write_self (m : Mem) (a : ℕ) (bs : List UInt8) : read (write m a bs) a bs.length = bs := by
  refine List.ext_getElem (by simp) fun i hi hi' => ?_
  simp [read, write, List.getElem?_eq_getElem hi']

theorem read_write {bs : List UInt8} (h : bs.length = n) : read (write m a bs) a n = bs := h ▸ read_write_self m a bs

theorem word_lt (m : Mem) (a : ℕ) : word m a < 2 ^ 32 := by simpa [word] using LittleEndian.ofBytes_lt (read m a 4)

theorem word_writeWord {v : ℕ} (h : v < 2 ^ 32) : word (writeWord m a v) a = v := by
  have hread := read_write_self m a (LittleEndian.toBytes 4 v)
  rw [LittleEndian.length_toBytes] at hread
  rw [word, writeWord, hread, LittleEndian.ofBytes_toBytes h]

/-! ### Accesses to an area -/

section Checked

variable {ε : Type} (size : ℕ) (e : ε)

def load (m : Mem) (a n : ℕ) : Except ε (List UInt8) := if a + n ≤ size then .ok (read m a n) else .error e

def store (m : Mem) (a : ℕ) (bs : List UInt8) : Except ε Mem := if a + bs.length ≤ size then .ok (write m a bs) else .error e

theorem load_ok {size : ℕ} {e : ε} (h : a + n ≤ size) : load size e m a n = .ok (read m a n) := if_pos h

theorem store_ok {size : ℕ} {e : ε} {bs : List UInt8} (h : a + bs.length ≤ size) :
    store size e m a bs = .ok (write m a bs) := if_pos h

end Checked

end Memory
