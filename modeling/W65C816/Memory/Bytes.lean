/-!
# Blocks of bytes

A block of bytes is a `ByteArray`. `Bytes.get` reads outside of a block as zero and `Bytes.put`
ignores writes there, which is how memory devices answer. `Bytes.get_put` is the law of the two.
-/

namespace W65C816

namespace Bytes

/-- The byte at position `i`, zero outside of the block. -/
def get (b : ByteArray) (i : Nat) : UInt8 :=
  if h : i < b.size then b.get i h else 0

/-- Replaces the byte at position `i`, if there is one. -/
def put (b : ByteArray) (i : Nat) (v : UInt8) : ByteArray :=
  if h : i < b.size then b.set i v h else b

/-- Replaces the bytes from position `i` on, as far as the block reaches. -/
def putAll (b : ByteArray) (i : Nat) : List UInt8 → ByteArray
  | [] => b
  | v :: rest => putAll (put b i v) (i + 1) rest

/-- The `n` bytes from position `i` on. -/
def slice (b : ByteArray) (i n : Nat) : List UInt8 :=
  (List.range n).map fun k => get b (i + k)

/-- A block of `n` equal bytes. -/
def replicate (n : Nat) (v : UInt8) : ByteArray :=
  fill n ByteArray.empty
where
  /-- Appends `k` more bytes. -/
  fill : Nat → ByteArray → ByteArray
    | 0, b => b
    | k + 1, b => fill k (b.push v)

@[simp] theorem size_put (b : ByteArray) (i : Nat) (v : UInt8) : (put b i v).size = b.size := by
  unfold put
  split
  · exact Array.size_set _
  · rfl

/-- A byte that is put beyond the end is lost. -/
theorem get_put (b : ByteArray) (i j : Nat) (v : UInt8) :
    get (put b i v) j = if i = j ∧ i < b.size then v else get b j := by
  have hs := size_put b i v
  by_cases hi : i < b.size
  · have hp : put b i v = b.set i v hi := dif_pos hi
    rw [hp] at hs ⊢
    by_cases hj : j < b.size
    · have hj' : j < (b.set i v hi).size := by rw [hs]; exact hj
      rw [get, dif_pos hj', get, dif_pos hj]
      refine (Array.getElem_set hi hj').trans ?_
      by_cases he : i = j
      · rw [if_pos he, if_pos ⟨he, hi⟩]
      · rw [if_neg he, if_neg (not_and_of_not_left _ he)]
        rfl
    · have hne : ¬ (i = j ∧ i < b.size) := fun h => hj (h.1 ▸ h.2)
      rw [get, dif_neg (by rw [hs]; exact hj), get, dif_neg hj, if_neg hne]
  · have hp : put b i v = b := dif_neg hi
    rw [hp, if_neg (not_and_of_not_right _ hi)]

/-- Putting bytes never makes an array longer. -/
@[simp] theorem size_putAll (b : ByteArray) (i : Nat) (l : List UInt8) :
    (putAll b i l).size = b.size := by
  induction l generalizing b i with
  | nil => rfl
  | cons v rest ih => rw [putAll, ih, size_put]

@[simp] theorem length_slice (b : ByteArray) (i n : Nat) : (slice b i n).length = n := by
  simp [slice]

/-- Filling adds as many bytes as it is told to. -/
theorem size_fill (v : UInt8) (k : Nat) (b : ByteArray) :
    (replicate.fill v k b).size = b.size + k := by
  induction k generalizing b with
  | zero => rfl
  | succ k ih =>
      rw [replicate.fill, ih, show (b.push v).size = b.size + 1 from Array.size_push v]
      omega

@[simp] theorem size_replicate (n : Nat) (v : UInt8) : (replicate n v).size = n := by
  rw [replicate, size_fill]
  exact Nat.zero_add n

/-- The byte that is pushed comes after all others. What lies outside reads as zero. -/
theorem get_push (b : ByteArray) (v : UInt8) (i : Nat) :
    get (b.push v) i = if i < b.size then get b i else if i = b.size then v else 0 := by
  have hs : (b.push v).size = b.size + 1 := Array.size_push v
  by_cases hi : i < b.size + 1
  · have hi' : i < (b.push v).size := by rw [hs]; exact hi
    rw [get, dif_pos hi']
    refine (Array.getElem_push hi').trans ?_
    by_cases hlt : i < b.size
    · rw [if_pos hlt, get, dif_pos hlt]
      exact dif_pos hlt
    · rw [if_neg hlt, if_pos (by omega)]
      exact dif_neg hlt
  · rw [get, dif_neg (by rw [hs]; exact hi), if_neg (by omega), if_neg (by omega)]

/-- By induction on the bytes that are still to be pushed: what was there stays, and `v` comes after
    it. -/
theorem get_fill (v : UInt8) (k : Nat) (b : ByteArray) (i : Nat) :
    get (replicate.fill v k b) i =
      if i < b.size then get b i else if i < b.size + k then v else 0 := by
  induction k generalizing b with
  | zero =>
      rw [replicate.fill]
      by_cases hi : i < b.size
      · rw [if_pos hi]
      · rw [if_neg hi, if_neg (by omega), get, dif_neg hi]
  | succ k ih =>
      rw [replicate.fill, ih, get_push, show (b.push v).size = b.size + 1 from Array.size_push v]
      by_cases hi : i < b.size
      · rw [if_pos (by omega), if_pos hi, if_pos hi]
      · by_cases he : i = b.size
        · rw [if_pos (by omega), if_neg hi, if_pos he, if_neg hi, if_pos (by omega)]
        · rw [if_neg (by omega), if_neg hi]
          by_cases hk : i < b.size + (k + 1)
          · rw [if_pos (by omega), if_pos hk]
          · rw [if_neg (by omega), if_neg hk]

/-- A block of equal bytes holds that byte as far as it reaches. -/
theorem get_replicate (n : Nat) (v : UInt8) (i : Nat) :
    get (replicate n v) i = if i < n then v else 0 := by
  rw [replicate, get_fill, if_neg (by exact Nat.not_lt_zero i)]
  simp

end Bytes

end W65C816
