import Mathlib.Data.BitVec
import Mathlib.Data.List.Basic

/-!
# Records in a memory of bytes

A memory is a function from addresses of `w` bits to bytes; addresses wrap.  An
area is its first address and its length, and a record is a list of fields, each
at an offset, that are stored one after the other.  `load_storeFields` reads one
of them back, `storeFields_frame` says that nothing else changes.
-/

namespace Unixlite.Verified.Layout

open List BitVec

/-- The byte at each address. -/
abbrev Mem (w : Nat) := BitVec w → BitVec 8

variable {w : Nat}

/-! ## Areas -/

/-- The address is one of the `n` from `a` on. -/
def Within (a : BitVec w) (n : Nat) (x : BitVec w) : Prop := (x - a).toNat < n

instance (a : BitVec w) (n : Nat) (x : BitVec w) : Decidable (Within a n x) :=
  inferInstanceAs (Decidable (_ < _))

/-- The area of `n` bytes from `a` on and the one of `k` bytes from `b` on have no
byte in common. -/
def Apart (a : BitVec w) (n : Nat) (b : BitVec w) (k : Nat) : Prop :=
  n ≤ (b - a).toNat ∧ k ≤ (a - b).toNat

instance (a : BitVec w) (n : Nat) (b : BitVec w) (k : Nat) : Decidable (Apart a n b k) :=
  inferInstanceAs (Decidable (_ ∧ _))

theorem toNat_sub_cases (x a : BitVec w) :
    (a.toNat ≤ x.toNat ∧ (x - a).toNat = x.toNat - a.toNat) ∨
      (x.toNat < a.toNat ∧ (x - a).toNat = 2 ^ w + x.toNat - a.toNat) := by
  rw [toNat_sub]
  rcases Nat.lt_or_ge x.toNat a.toNat with h | h
  · right
    refine ⟨h, ?_⟩
    rw [Nat.mod_eq_of_lt (by omega)]
    omega
  · left
    refine ⟨h, ?_⟩
    rw [show 2 ^ w - a.toNat + x.toNat = x.toNat - a.toNat + 2 ^ w by omega, Nat.add_mod_right,
      Nat.mod_eq_of_lt (by omega)]

variable {a b x : BitVec w} {i k n : Nat} {bs : List (BitVec 8)}

theorem Apart.symm (h : Apart a n b k) : Apart b k a n := ⟨h.2, h.1⟩

theorem Apart.not_within (h : Apart a n b k) (hx : Within a n x) : ¬ Within b k x := by
  obtain ⟨hn, hk⟩ := h
  unfold Within at hx ⊢
  rcases toNat_sub_cases b a with hb | hb <;> rcases toNat_sub_cases a b with ha | ha <;>
    rcases toNat_sub_cases x a with hxa | hxa <;> rcases toNat_sub_cases x b with hxb | hxb <;>
    omega

/-- A part of one area is apart from what the whole is apart from. -/
theorem Apart.mono {c : BitVec w} {n' : Nat} (h : Apart a n b k) (hpos : 0 < n')
    (hk : 0 < k) (hle : (c - a).toNat + n' ≤ n) : Apart c n' b k := by
  obtain ⟨hn, hk'⟩ := h
  unfold Apart
  rcases toNat_sub_cases b a with hb | hb <;> rcases toNat_sub_cases a b with ha | ha <;>
    rcases toNat_sub_cases c a with hca | hca <;> rcases toNat_sub_cases b c with hbc | hbc <;>
    rcases toNat_sub_cases c b with hcb | hcb <;> omega

theorem toNat_offset (a : BitVec w) (hi : i < 2 ^ w) : (a + BitVec.ofNat w i - a).toNat = i := by
  rw [add_comm, add_sub_cancel, toNat_ofNat, Nat.mod_eq_of_lt hi]

theorem within_offset (a : BitVec w) (hi : i < n) (hn : n ≤ 2 ^ w) :
    Within a n (a + BitVec.ofNat w i) := by
  rw [Within, toNat_offset a (by omega)]
  exact hi

/-! ## Loads and stores -/

/-- `bs` is stored at `a`. -/
def store (mem : Mem w) (a : BitVec w) (bs : List (BitVec 8)) : Mem w :=
  fun x => (bs[(x - a).toNat]?).getD (mem x)

/-- The `n` bytes at `a`. -/
def load (mem : Mem w) (a : BitVec w) (n : Nat) : List (BitVec 8) :=
  (List.range n).map fun i => mem (a + BitVec.ofNat w i)

@[simp] theorem length_load (mem : Mem w) (a : BitVec w) (n : Nat) : (load mem a n).length = n := by
  simp [load]

/-- The two memories agree on an area. -/
def Agree (mem mem' : Mem w) (a : BitVec w) (n : Nat) : Prop :=
  ∀ x, Within a n x → mem' x = mem x

theorem store_frame (mem : Mem w) (h : ¬ Within a bs.length x) : store mem a bs x = mem x := by
  rw [store, List.getElem?_eq_none (Nat.le_of_not_lt h)]
  rfl

theorem store_agree (mem : Mem w) (h : Apart a bs.length b n) : Agree mem (store mem a bs) b n :=
  fun _ hx => store_frame mem (h.symm.not_within hx)

/-- What is loaded depends on the area only. -/
theorem load_congr {mem mem' : Mem w} (hn : n ≤ 2 ^ w)
    (h : Agree mem mem' a n) : load mem' a n = load mem a n := by
  refine map_congr_left fun i hi => h _ ?_
  exact within_offset a (mem_range.mp hi) hn

/-- Two loads of the same area that give the same bytes. -/
theorem agree_of_load {mem mem' : Mem w}
    (h : load mem' a n = load mem a n) : Agree mem mem' a n := by
  intro x hx
  have hx' : a + BitVec.ofNat w (x - a).toNat = x := by
    rw [ofNat_toNat, setWidth_eq, add_comm, sub_add_cancel]
  have hget := congrArg (fun l => l[(x - a).toNat]?) h
  simpa only [load, List.getElem?_map, List.getElem?_range hx, Option.map_some, hx',
    Option.some.injEq] using hget

/-- One byte of a load. -/
theorem getElem_load {mem : Mem w} (h : load mem a bs.length = bs) (hi : i < bs.length) :
    mem (a + BitVec.ofNat w i) = bs[i] := by
  have hget := congrArg (fun l => l[i]?) h
  simpa [load, List.getElem?_range hi, List.getElem?_eq_getElem hi] using hget

theorem load_store (mem : Mem w) (a : BitVec w) (hbs : bs.length ≤ 2 ^ w) :
    load (store mem a bs) a bs.length = bs := by
  apply ext_getElem (by simp)
  intro i hi hi'
  have hlt : i < bs.length := by simpa using hi
  simp only [load, getElem_map, getElem_range, store]
  rw [toNat_offset a (by omega), List.getElem?_eq_getElem hlt]
  rfl

/-! ## Records -/

/-- A field: its offset, and its bytes. -/
abbrev Field := Nat × List (BitVec 8)

/-- The end of the field. -/
def fieldEnd (f : Field) : Nat := f.1 + f.2.length

/-- The fields are stored one after the other. -/
def storeFields (a : BitVec w) : List Field → Mem w → Mem w
  | [], mem => mem
  | f :: fs, mem => storeFields a fs (store mem (a + BitVec.ofNat w f.1) f.2)

/-- The fields do not overlap. -/
def FieldsApart (f g : Field) : Prop := fieldEnd f ≤ g.1 ∨ fieldEnd g ≤ f.1

instance (f g : Field) : Decidable (FieldsApart f g) := inferInstanceAs (Decidable (_ ∨ _))

/-- Where a field lies in the record. -/
theorem within_field {f : Field} (hn : n ≤ 2 ^ w) (hf : fieldEnd f ≤ n)
    (h : Within (a + BitVec.ofNat w f.1) f.2.length x) : Within a n x := by
  unfold Within at h ⊢
  unfold fieldEnd at hf
  by_cases hlen : f.1 < 2 ^ w
  · have hoff := toNat_offset a hlen
    rcases toNat_sub_cases (a + BitVec.ofNat w f.1) a with ha | ha <;>
      rcases toNat_sub_cases x (a + BitVec.ofNat w f.1) with hx | hx <;>
      rcases toNat_sub_cases x a with hxa | hxa <;> omega
  · omega

/-- The record is all that changes. -/
theorem storeFields_frame {fs : List Field} (hn : n ≤ 2 ^ w)
    (hfs : ∀ f ∈ fs, fieldEnd f ≤ n) (mem : Mem w) (hx : ¬ Within a n x) :
    storeFields a fs mem x = mem x := by
  induction fs generalizing mem with
  | nil => rfl
  | cons f fs ih =>
      have hout : ¬ Within (a + BitVec.ofNat w f.1) f.2.length x :=
        fun h => hx (within_field hn (hfs f (by simp)) h)
      rw [storeFields, ih (fun g hg => hfs g (by simp [hg])), store_frame mem hout]

/-- A byte that no field covers. -/
theorem storeFields_apart {fs : List Field} (mem : Mem w)
    (hx : ∀ f ∈ fs, ¬ Within (a + BitVec.ofNat w f.1) f.2.length x) :
    storeFields a fs mem x = mem x := by
  induction fs generalizing mem with
  | nil => rfl
  | cons f fs ih =>
      rw [storeFields, ih _ fun g hg => hx g (by simp [hg]), store_frame mem (hx f (by simp))]

/-- Two fields of a record that do not overlap, at their addresses. -/
theorem FieldsApart.apart {f g : Field} (h : FieldsApart f g) (a : BitVec w)
    (hf : fieldEnd f < 2 ^ w) (hg : fieldEnd g < 2 ^ w)
    (hx : Within (a + BitVec.ofNat w f.1) f.2.length x) :
    ¬ Within (a + BitVec.ofNat w g.1) g.2.length x := by
  unfold FieldsApart fieldEnd at h
  unfold fieldEnd at hf hg
  unfold Within at hx ⊢
  have hfo := toNat_offset a (show f.1 < 2 ^ w by omega)
  have hgo := toNat_offset a (show g.1 < 2 ^ w by omega)
  rcases toNat_sub_cases (a + BitVec.ofNat w f.1) a with hfa | hfa <;>
    rcases toNat_sub_cases (a + BitVec.ofNat w g.1) a with hga | hga <;>
    rcases toNat_sub_cases x (a + BitVec.ofNat w f.1) with hxf | hxf <;>
    rcases toNat_sub_cases x (a + BitVec.ofNat w g.1) with hxg | hxg <;> omega

/-- **A field is read back** from the record it was stored with. -/
theorem load_storeFields {fs : List Field} (hfs : fs.Pairwise FieldsApart)
    (hfit : ∀ f ∈ fs, fieldEnd f < 2 ^ w) (mem : Mem w) (a : BitVec w) {f : Field} (hf : f ∈ fs) :
    load (storeFields a fs mem) (a + BitVec.ofNat w f.1) f.2.length = f.2 := by
  induction fs generalizing mem with
  | nil => cases hf
  | cons g fs ih =>
      obtain ⟨hg, hrest⟩ := pairwise_cons.mp hfs
      have hlen : f.2.length ≤ 2 ^ w := by
        have := hfit f hf
        unfold fieldEnd at this
        omega
      rcases mem_cons.mp hf with rfl | hf
      · rw [storeFields]
        have hagree : Agree (store mem (a + BitVec.ofNat w f.1) f.2)
            (storeFields a fs (store mem (a + BitVec.ofNat w f.1) f.2))
            (a + BitVec.ofNat w f.1) f.2.length := by
          intro x hx
          refine storeFields_apart _ fun g' hg' => ?_
          exact (hg g' hg').apart a (hfit f (by simp)) (hfit g' (by simp [hg'])) hx
        rw [load_congr hlen hagree, load_store mem _ hlen]
      · exact ih hrest (fun g' hg' => hfit g' (by simp [hg'])) _ hf

/-! ## Numbers -/

/-- The `n` lowest bytes of a number, the lowest one first. -/
def bytes : Nat → Nat → List (BitVec 8)
  | 0, _ => []
  | n + 1, v => BitVec.ofNat 8 v :: bytes n (v / 256)

/-- The number with these bytes. -/
def ofBytes : List (BitVec 8) → Nat
  | [] => 0
  | b :: bs => b.toNat + 256 * ofBytes bs

@[simp] theorem length_bytes (n v : Nat) : (bytes n v).length = n := by
  induction n generalizing v with
  | zero => rfl
  | succ n ih => simp [bytes, ih]

theorem ofBytes_bytes (n v : Nat) : ofBytes (bytes n v) = v % 256 ^ n := by
  induction n generalizing v with
  | zero => simp [bytes, ofBytes, Nat.mod_one]
  | succ n ih =>
      have hpow : 256 ^ (n + 1) = 256 * 256 ^ n := by
        rw [Nat.pow_succ, Nat.mul_comm]
      rw [bytes, ofBytes, ih, toNat_ofNat, hpow, Nat.mod_mul]

/-- A word is the number that its bytes give. -/
theorem ofNat_ofBytes (v : BitVec k) (h : 2 ^ k = 256 ^ n) :
    BitVec.ofNat k (ofBytes (bytes n v.toNat)) = v := by
  rw [ofBytes_bytes, ← h, Nat.mod_eq_of_lt v.isLt, ofNat_toNat, setWidth_eq]

end Unixlite.Verified.Layout
