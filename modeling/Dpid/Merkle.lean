import Dpid.HashTree
import Dpid.Sha256
import Mathlib.Data.Nat.Log
import Mathlib.Data.Set.Operations
/-!
# Merkle — `merkleTree`, `getMerkleBranch` and `merkleVerify` (`honeybadgerbft/core/reliablebroadcast.py`)

The tree is a list with the root at 1 and the children of `i` at `2 i` and `2 i + 1`; the leaves fill the bottom row
from the left and the rest of that row is empty strings.  `ceil(math.log(N, 2))` is the exact ceiling, `Nat.clog 2 N`.
`node_leaf` and `node_inner` say what the two loops build, `Dpid/HashTree.lean` does the rest: a branch is accepted
exactly when it is the genuine one (`merkleVerify_treeOf`, `merkleVerify_binding`), up to a collision among the strings
hashed.
-/
namespace Dpid

open HashTree

/-! ## The tree -/

def bottomrow (N : Nat) : Nat := 2 ^ Nat.clog 2 N

/-- `for i in range(N): mt[bottomrow + i] = hash(strList[i])`. -/
def setLeaves (H : Hash) (b : Nat) : Nat → List Bytes → List Bytes → List Bytes
  | _, [], mt        => mt
  | i, s :: rest, mt => setLeaves H b (i + 1) rest (mt.set (b + i) (H s))

/-- `for i in range(n, 0, -1): mt[i] = hash(mt[i*2] + mt[i*2+1])`. -/
def hashRows (H : Hash) : Nat → List Bytes → List Bytes
  | 0, mt     => mt
  | i + 1, mt => hashRows H i (mt.set (i + 1) (H (mt.getD ((i + 1) * 2) [] ++ mt.getD ((i + 1) * 2 + 1) [])))

/-- The list `merkleTree` returns. -/
def treeOf (H : Hash) (strList : List Bytes) : List Bytes :=
  let b := bottomrow strList.length
  hashRows H (b - 1) (setLeaves H b 0 strList (List.replicate (2 * b) []))

def merkleTree (H : Hash) (strList : List Bytes) : Except Exn (List Bytes) :=
  if 1 ≤ strList.length then .ok (treeOf H strList) else .error .assertionError

/-- `mt[i]`. -/
def node (H : Hash) (strList : List Bytes) (i : Nat) : Bytes := (treeOf H strList).getD i []

/-- The strings `merkleTree` hashes: the leaves, and for every inner node its children. -/
def merkleTreeHashed (H : Hash) (strList : List Bytes) : List Bytes :=
  strList ++ (List.range (bottomrow strList.length - 1)).map (fun i =>
    node H strList ((i + 1) * 2) ++ node H strList ((i + 1) * 2 + 1))

/-- `mt[1]`. -/
def rootOf (H : Hash) (strList : List Bytes) : Bytes := node H strList 1

/-! ## The branch -/

/-- `while t > 1: res.append(mt[t ^ 1]); t //= 2`, for at most `n` rounds. -/
def branchFrom (mt : List Bytes) : Nat → Nat → List Bytes
  | 0, _     => []
  | n + 1, t => if 1 < t then mt.getD (t ^^^ 1) [] :: branchFrom mt n (t / 2) else []

def getMerkleBranch (index : Nat) (mt : List Bytes) : List Bytes :=
  let t := index + mt.length >>> 1
  branchFrom mt t t

/-! ## The verifier -/

/-- Python's `c and a or b` on an integer and two byte strings: an empty `a` counts as false. -/
def pyAndOr (c : Nat) (a b : Bytes) : Bytes := if c = 0 then b else if a = [] then b else a

/-- `for br in branch: tmp = hash((tindex & 1) and br + tmp or tmp + br); tindex >>= 1`. -/
def verifyFrom (H : Hash) : Nat → Bytes → List Bytes → Bytes
  | _, tmp, []              => tmp
  | tindex, tmp, br :: rest => verifyFrom H (tindex >>> 1) (H (pyAndOr (tindex &&& 1) (br ++ tmp) (tmp ++ br))) rest

/-- The strings that loop hashes. -/
def verifyFromHashed (H : Hash) : Nat → Bytes → List Bytes → List Bytes
  | _, _, []                => []
  | tindex, tmp, br :: rest =>
    pyAndOr (tindex &&& 1) (br ++ tmp) (tmp ++ br) ::
      verifyFromHashed H (tindex >>> 1) (H (pyAndOr (tindex &&& 1) (br ++ tmp) (tmp ++ br))) rest

def merkleVerify (H : Hash) (N : Nat) (val roothash : Bytes) (branch : List Bytes) (index : Nat) : Except Exn Bool := do
  if ¬ index < N then throw .assertionError
  if branch.length ≠ Nat.clog 2 N then throw .assertionError
  return verifyFrom H index (H val) branch == roothash

/-- The strings `merkleVerify` hashes: none when an assertion fails first. -/
def merkleVerifyHashed (H : Hash) (N : Nat) (val : Bytes) (branch : List Bytes) (index : Nat) : List Bytes :=
  if index < N ∧ branch.length = Nat.clog 2 N then val :: verifyFromHashed H index (H val) branch else []

/-! ## What the loops of `merkleTree` build -/

theorem setLeaves_length (H : Hash) (b : Nat) : ∀ (l : List Bytes) (i : Nat) (mt : List Bytes),
    (setLeaves H b i l mt).length = mt.length
  | [], _, _        => rfl
  | s :: rest, i, mt => by rw [setLeaves, setLeaves_length H b rest, List.length_set]

theorem hashRows_length (H : Hash) : ∀ (n : Nat) (mt : List Bytes), (hashRows H n mt).length = mt.length
  | 0, _      => rfl
  | n + 1, mt => by rw [hashRows, hashRows_length H n, List.length_set]

theorem getD_set (mt : List Bytes) (i j : Nat) (v : Bytes) (hi : i < mt.length) :
    (mt.set i v).getD j [] = if i = j then v else mt.getD j [] := by
  rw [List.getD_eq_getElem?_getD, List.getElem?_set, List.getD_eq_getElem?_getD]
  split
  · rfl
  · rfl

theorem setLeaves_getD (H : Hash) (b : Nat) : ∀ (l : List Bytes) (i : Nat) (mt : List Bytes) (j : Nat),
    b + i + l.length ≤ mt.length → (setLeaves H b i l mt).getD j [] =
      if b + i ≤ j ∧ j < b + i + l.length then H (l.getD (j - (b + i)) []) else mt.getD j []
  | [], i, mt, j, _ => by
    have : ¬ (b + i ≤ j ∧ j < b + i + ([] : List Bytes).length) := by simp
    rw [setLeaves, if_neg this]
  | s :: rest, i, mt, j, h => by
    simp only [List.length_cons] at h
    rw [setLeaves, setLeaves_getD H b rest (i + 1) _ j (by rw [List.length_set]; omega),
      getD_set _ _ _ _ (by omega), List.length_cons]
    by_cases hj : b + i = j
    · have h1 : ¬ (b + (i + 1) ≤ j ∧ j < b + (i + 1) + rest.length) := by omega
      have h2 : b + i ≤ j ∧ j < b + i + (rest.length + 1) := by omega
      have h3 : j - (b + i) = 0 := by omega
      rw [if_neg h1, if_pos hj, if_pos h2, h3]
      rfl
    · by_cases hr : b + (i + 1) ≤ j ∧ j < b + (i + 1) + rest.length
      · have h2 : b + i ≤ j ∧ j < b + i + (rest.length + 1) := by omega
        have h3 : j - (b + i) = (j - (b + (i + 1))) + 1 := by omega
        rw [if_pos hr, if_pos h2, h3]
        rfl
      · have h2 : ¬ (b + i ≤ j ∧ j < b + i + (rest.length + 1)) := by omega
        rw [if_neg hr, if_neg hj, if_neg h2]

theorem hashRows_getD_of_lt (H : Hash) : ∀ (n : Nat) (mt : List Bytes) (j : Nat), n < mt.length → n < j →
    (hashRows H n mt).getD j [] = mt.getD j []
  | 0, _, _, _, _       => rfl
  | n + 1, mt, j, hn, hj => by
    rw [hashRows, hashRows_getD_of_lt H n _ j (by rw [List.length_set]; omega) (by omega), getD_set _ _ _ _ hn,
      if_neg (by omega)]

theorem hashRows_getD (H : Hash) : ∀ (n : Nat) (mt : List Bytes) (i : Nat), n < mt.length → 1 ≤ i → i ≤ n →
    (hashRows H n mt).getD i [] = H ((hashRows H n mt).getD (i * 2) [] ++ (hashRows H n mt).getD (i * 2 + 1) [])
  | 0, _, _, _, h1, h2      => by omega
  | n + 1, mt, i, hn, h1, h2 => by
    rw [hashRows]
    generalize hv : H (mt.getD ((n + 1) * 2) [] ++ mt.getD ((n + 1) * 2 + 1) []) = v
    have hn' : n < (mt.set (n + 1) v).length := by rw [List.length_set]; omega
    by_cases hi : i = n + 1
    · subst hi
      rw [hashRows_getD_of_lt H n _ _ hn' (by omega), hashRows_getD_of_lt H n _ _ hn' (by omega),
        hashRows_getD_of_lt H n _ _ hn' (by omega), getD_set _ _ _ _ hn, getD_set _ _ _ _ hn, getD_set _ _ _ _ hn,
        if_pos rfl, if_neg (by omega), if_neg (by omega), hv]
    · exact hashRows_getD H n _ i hn' h1 (by omega)

section Tree

variable (H : Hash) (L : List Bytes)

theorem bottomrow_pos (N : Nat) : 1 ≤ bottomrow N := Nat.one_le_two_pow

theorem le_bottomrow (N : Nat) : N ≤ bottomrow N := Nat.le_pow_clog (by decide) N

theorem treeOf_length : (treeOf H L).length = 2 * bottomrow L.length := by
  simp [treeOf, hashRows_length, setLeaves_length]

theorem node_leaf (i : Nat) (hi : i < L.length) :
    node H L (bottomrow L.length + i) = H (L.getD i []) := by
  have hb := bottomrow_pos L.length
  have hle := le_bottomrow L.length
  rw [node, treeOf, hashRows_getD_of_lt H _ _ _ (by rw [setLeaves_length, List.length_replicate]; omega) (by omega),
    setLeaves_getD H _ L 0 _ _ (by rw [List.length_replicate]; omega), if_pos (by omega)]
  congr 2
  omega

theorem node_inner (i : Nat) (h1 : 1 ≤ i) (h2 : i < bottomrow L.length) :
    node H L i = H (node H L (i * 2) ++ node H L (i * 2 + 1)) := by
  simp only [node, treeOf]
  exact hashRows_getD H _ _ i (by rw [setLeaves_length, List.length_replicate]; omega) h1 (by omega)

/-- Above every node of the tree the values are hashes. -/
theorem treeOf_hashed : ∀ (k t : Nat), 2 ^ k ≤ t → t < 2 * bottomrow L.length →
    Hashed H (node H L) t k
  | 0, _, _, _      => trivial
  | k + 1, t, h, hb => by
    have hpow : 1 ≤ 2 ^ k := Nat.one_le_two_pow
    rw [Nat.pow_succ] at h
    have hcomm : ∀ i, i * 2 = 2 * i := fun i => Nat.mul_comm _ _
    refine ⟨?_, treeOf_hashed k (t / 2) (by omega) (by omega)⟩
    rw [combine_sibling, node_inner H L (t / 2) (by omega) (by omega), hcomm]

/-- The strings the tree hashes above a node are among those `merkleTree` hashes. -/
theorem pathInputs_subset : ∀ (k t : Nat), 2 ^ k ≤ t → t < 2 * bottomrow L.length →
    ∀ x ∈ pathInputs (node H L) t k, x ∈ merkleTreeHashed H L
  | 0, _, _, _, x, hx      => by cases hx
  | k + 1, t, h, hb, x, hx => by
    have hpow : 1 ≤ 2 ^ k := Nat.one_le_two_pow
    rw [Nat.pow_succ] at h
    rw [pathInputs, combine_sibling] at hx
    rcases List.mem_cons.1 hx with rfl | hx
    · refine List.mem_append_right _ (List.mem_map.2 ⟨t / 2 - 1, List.mem_range.2 (by omega), ?_⟩)
      have h2 : (t / 2 - 1 + 1) * 2 = 2 * (t / 2) := by omega
      rw [h2]
    · exact pathInputs_subset k (t / 2) (by omega) (by omega) x hx

end Tree

/-! ## The verifier as a climb -/

theorem pyAndOr_eq_combine (t : Nat) (tmp br : Bytes) :
    pyAndOr (t &&& 1) (br ++ tmp) (tmp ++ br) = combine t tmp br := by
  rw [pyAndOr, combine, Nat.and_one_is_mod]
  rcases Nat.mod_two_eq_zero_or_one t with h | h
  · simp [h]
  · by_cases he : br ++ tmp = []
    · obtain ⟨rfl, rfl⟩ := List.append_eq_nil_iff.1 he
      simp
    · simp [h, he]

theorem verifyFrom_eq (H : Hash) : ∀ (branch : List Bytes) (t : Nat) (tmp : Bytes),
    verifyFrom H t tmp branch = climb H t tmp branch ∧ verifyFromHashed H t tmp branch = climbInputs H t tmp branch
  | [], _, _           => ⟨rfl, rfl⟩
  | br :: rest, t, tmp => by
    rw [verifyFrom, verifyFromHashed, climb, climbInputs, pyAndOr_eq_combine, Nat.shiftRight_one]
    obtain ⟨h1, h2⟩ := verifyFrom_eq H rest (t / 2) (H (combine t tmp br))
    exact ⟨h1, by rw [h2]⟩

theorem merkleVerify_eq_ok (H : Hash) (N : Nat) (val root : Bytes) (branch : List Bytes) (index : Nat) :
    merkleVerify H N val root branch index = .ok true ↔
      index < N ∧ branch.length = Nat.clog 2 N ∧ climb H index (H val) branch = root := by
  unfold merkleVerify
  rw [(verifyFrom_eq H branch index (H val)).1]
  by_cases hi : index < N
  · by_cases hb : branch.length = Nat.clog 2 N
    · simp [hi, hb, pure, Except.pure]
    · simp [hi, hb, bind, Except.bind, throw, throwThe, MonadExceptOf.throw]
  · simp [hi, bind, Except.bind, throw, throwThe, MonadExceptOf.throw]

/-- Nothing is verified against the empty string. -/
theorem merkleVerify_nil (H : Hash) (N : Nat) (val : Bytes) (branch : List Bytes) (index : Nat) :
    merkleVerify H N val [] branch index ≠ .ok true := by
  intro h
  have hlen := climb_length H H.length_digest branch index (H val) (H.length_digest val)
  rw [((merkleVerify_eq_ok H N val [] branch index).1 h).2.2] at hlen
  cases hlen

theorem branchFrom_eq (mt : List Bytes) : ∀ (k n t : Nat), 2 ^ k ≤ t → t < 2 ^ (k + 1) → k ≤ n →
    branchFrom mt n t = siblings (fun i => mt.getD i []) t k
  | 0, n, t, h1, h2, _ => by
    have : t = 1 := by omega
    subst this
    cases n <;> simp [branchFrom, siblings]
  | k + 1, 0, t, _, _, hn => by omega
  | k + 1, n + 1, t, h1, h2, hn => by
    have hpow : 1 ≤ 2 ^ k := Nat.one_le_two_pow
    rw [Nat.pow_succ] at h1
    rw [Nat.pow_succ, Nat.pow_succ] at h2
    rw [branchFrom, siblings, if_pos (by omega), branchFrom_eq mt k n (t / 2) (by omega) (by rw [Nat.pow_succ]; omega)
      (by omega)]

section Verify

variable (H : Hash) (L : List Bytes) (i : Nat)

theorem getMerkleBranch_eq (hi : i < L.length) : getMerkleBranch i (treeOf H L) =
    siblings (node H L) (i + bottomrow L.length) (Nat.clog 2 L.length) := by
  have hle := le_bottomrow L.length
  have hshift : (treeOf H L).length >>> 1 = bottomrow L.length := by
    rw [treeOf_length, Nat.shiftRight_one]; omega
  have hlog : Nat.clog 2 L.length ≤ bottomrow L.length := Nat.le_of_lt Nat.lt_two_pow_self
  rw [getMerkleBranch]
  simp only [hshift]
  refine branchFrom_eq _ _ _ _ (Nat.le_add_left _ _) ?_ (by omega)
  rw [Nat.pow_succ]
  unfold bottomrow at *
  omega

theorem getMerkleBranch_length (hi : i < L.length) :
    (getMerkleBranch i (treeOf H L)).length = Nat.clog 2 L.length := by
  rw [getMerkleBranch_eq H L i hi, siblings_length]

theorem div_two_pow (hi : i < L.length) : (i + bottomrow L.length) / 2 ^ Nat.clog 2 L.length = 1 := by
  have hle := le_bottomrow L.length
  have hpos := bottomrow_pos L.length
  show (i + bottomrow L.length) / bottomrow L.length = 1
  rw [Nat.add_div_right _ hpos, Nat.div_eq_of_lt (by omega)]

/-- **A genuine branch is accepted.** -/
theorem merkleVerify_treeOf (hi : i < L.length) :
    merkleVerify H L.length (L.getD i []) (rootOf H L) (getMerkleBranch i (treeOf H L)) i = .ok true := by
  have hle := le_bottomrow L.length
  have hlen := getMerkleBranch_length H L i hi
  refine (merkleVerify_eq_ok _ _ _ _ _ _).2 ⟨hi, hlen, ?_⟩
  rw [← (climb_add H (bottomrow L.length) _ i _ (by rw [hlen, bottomrow])).1, ← node_leaf H L i hi,
    getMerkleBranch_eq H L i hi, Nat.add_comm (bottomrow L.length) i]
  exact (climb_siblings H (node H L) _ _
    (treeOf_hashed H L (Nat.clog 2 L.length) (i + bottomrow L.length) (Nat.le_add_left _ _) (by omega))).trans
    (congrArg (node H L) (div_two_pow L i hi))

/-- **An accepted branch is the genuine one for the genuine leaf**, or two of the strings hashed collide. -/
theorem merkleVerify_binding (hi : i < L.length) {val : Bytes} {branch : List Bytes}
    (h : merkleVerify H L.length val (rootOf H L) branch i = .ok true) :
    (val = L.getD i [] ∧ branch = getMerkleBranch i (treeOf H L)) ∨
      Collide H (merkleTreeHashed H L ++ merkleVerifyHashed H L.length val branch i) := by
  have hle := le_bottomrow L.length
  obtain ⟨-, hlen, hroot⟩ := (merkleVerify_eq_ok _ _ _ _ _ _).1 h
  have hadd := climb_add H (bottomrow L.length) branch i (H val) (by rw [hlen, bottomrow])
  have hhashed : merkleVerifyHashed H L.length val branch i =
      val :: climbInputs H (i + bottomrow L.length) (H val) branch := by
    rw [merkleVerifyHashed, if_pos ⟨hi, hlen⟩, (verifyFrom_eq H branch i (H val)).2, hadd.2]
  have hnode : node H L (i + bottomrow L.length) = H (L.getD i []) := by
    rw [Nat.add_comm]; exact node_leaf H L i hi
  have hleaf : L.getD i [] ∈ merkleTreeHashed H L := by
    refine List.mem_append_left _ ?_
    rw [List.getD_eq_getElem?_getD, List.getElem?_eq_getElem hi]
    exact List.getElem_mem hi
  have hbind := climb_binding H H.length_digest (node H L) branch (i + bottomrow L.length) (H val)
    (treeOf_hashed H L _ _ (hlen ▸ Nat.le_add_left _ _) (by omega))
    (by rw [hnode, H.length_digest, H.length_digest]) (by rw [hadd.1, hroot, hlen, div_two_pow L i hi]; rfl)
  rw [hlen, ← getMerkleBranch_eq H L i hi, hnode] at hbind
  rw [hhashed]
  rcases hbind with ⟨hv, hb⟩ | hc
  · by_cases hval : val = L.getD i []
    · exact Or.inl ⟨hval, hb⟩
    · exact Or.inr ⟨val, by simp, L.getD i [], List.mem_append_left _ hleaf, hval, hv⟩
  · refine Or.inr (hc.mono H (fun x hx => ?_))
    rcases List.mem_append.1 hx with hx | hx
    · exact List.mem_append_right _ (List.mem_cons_of_mem _ hx)
    · exact List.mem_append_left _ (pathInputs_subset H L (Nat.clog 2 L.length) (i + bottomrow L.length) (Nat.le_add_left _ _)
        (by omega) x hx)

/-- **Merkle branches are accepted exactly when genuine**: the genuine branch is, and whatever is accepted is the
genuine branch of the genuine leaf, or two of the strings hashed by `merkleTree` and this `merkleVerify` collide. -/
theorem merkleVerify_genuine {mt : List Bytes} (hmt : merkleTree H L = .ok mt) (hi : i < L.length) (val : Bytes)
    (branch : List Bytes) :
    (val = L[i] ∧ branch = getMerkleBranch i mt → merkleVerify H L.length val (mt.getD 1 []) branch i = .ok true) ∧
    (merkleVerify H L.length val (mt.getD 1 []) branch i = .ok true →
      (val = L[i] ∧ branch = getMerkleBranch i mt) ∨
        Collide H (merkleTreeHashed H L ++ merkleVerifyHashed H L.length val branch i)) := by
  have hleaf : L.getD i [] = L[i] := by rw [List.getD_eq_getElem?_getD, List.getElem?_eq_getElem hi]; rfl
  have htree : treeOf H L = mt := by
    rw [merkleTree, if_pos (by omega)] at hmt
    exact Except.ok.inj hmt
  subst htree
  constructor
  · rintro ⟨rfl, rfl⟩
    rw [← hleaf]
    exact merkleVerify_treeOf H L i hi
  · intro h
    rw [← hleaf]
    exact merkleVerify_binding H L i hi h

theorem merkleVerify_genuine_three :
    merkleVerify sha256 3 [3] ((treeOf sha256 [[1], [2], [3]]).getD 1 [])
      (getMerkleBranch 2 (treeOf sha256 [[1], [2], [3]])) 2 = .ok true :=
  (merkleVerify_genuine sha256 [[1], [2], [3]] 2 rfl (by decide) [3] _).1 ⟨rfl, rfl⟩

/-! ## Without collisions -/

/-- Verifying a genuine branch hashes only strings the tree hashes. -/
theorem merkleVerifyHashed_treeOf (hi : i < L.length) :
    ∀ x ∈ merkleVerifyHashed H L.length (L.getD i []) (getMerkleBranch i (treeOf H L)) i, x ∈ merkleTreeHashed H L := by
  have hle := le_bottomrow L.length
  have hlen := getMerkleBranch_length H L i hi
  have hnode : H (L.getD i []) = node H L (i + bottomrow L.length) := by
    rw [Nat.add_comm]; exact (node_leaf H L i hi).symm
  intro x hx
  rw [merkleVerifyHashed, if_pos ⟨hi, hlen⟩, (verifyFrom_eq H _ i _).2,
    ← (climb_add H (bottomrow L.length) _ i _ (by rw [hlen, bottomrow])).2, hnode, getMerkleBranch_eq H L i hi,
    climbInputs_siblings H _ _ _
      (treeOf_hashed H L (Nat.clog 2 L.length) (i + bottomrow L.length) (Nat.le_add_left _ _) (by omega))] at hx
  rcases List.mem_cons.1 hx with rfl | hx
  · refine List.mem_append_left _ ?_
    rw [List.getD_eq_getElem?_getD, List.getElem?_eq_getElem hi]
    exact List.getElem_mem hi
  · exact pathInputs_subset H L (Nat.clog 2 L.length) (i + bottomrow L.length) (Nat.le_add_left _ _) (by omega) x hx

variable {H L i}

/-- **Where no two strings collide, a verified string is the leaf.** -/
theorem leaf_of_merkleVerify {X : Set Bytes} (hX : Set.InjOn H X) (hL : ∀ x ∈ merkleTreeHashed H L, x ∈ X)
    (hi : i < L.length) {val : Bytes} {branch : List Bytes}
    (hv : ∀ x ∈ merkleVerifyHashed H L.length val branch i, x ∈ X)
    (h : merkleVerify H L.length val (rootOf H L) branch i = .ok true) : val = L.getD i [] := by
  rcases merkleVerify_binding H L i hi h with ⟨hval, -⟩ | ⟨x, hx, y, hy, hne, heq⟩
  · exact hval
  · have hmem : ∀ x ∈ merkleTreeHashed H L ++ merkleVerifyHashed H L.length val branch i, x ∈ X := fun x hx =>
      (List.mem_append.1 hx).elim (hL x) (hv x)
    exact absurd (hX (hmem x hx) (hmem y hy) heq) hne

/-- **Where no two strings collide, the root determines the list.** -/
theorem eq_of_rootOf_eq {X : Set Bytes} (hX : Set.InjOn H X) (hL : ∀ x ∈ merkleTreeHashed H L, x ∈ X) {L' : List Bytes}
    (hL' : ∀ x ∈ merkleTreeHashed H L', x ∈ X) (hlen : L.length = L'.length) (h : rootOf H L = rootOf H L') :
    L = L' := by
  refine List.ext_getElem hlen (fun i hi hi' => ?_)
  have hleaf : L.getD i [] = L'.getD i [] := leaf_of_merkleVerify hX hL' hi'
    (fun x hx => hL x (merkleVerifyHashed_treeOf H L i hi x (hlen ▸ hx)))
    (by rw [← h, ← hlen]; exact merkleVerify_treeOf H L i hi)
  rwa [List.getD_eq_getElem?_getD, List.getElem?_eq_getElem hi, List.getD_eq_getElem?_getD,
    List.getElem?_eq_getElem hi'] at hleaf

end Verify

end Dpid
