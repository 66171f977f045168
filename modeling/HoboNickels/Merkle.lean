import HoboNickels.Primitives

/-!
# The merkle tree of a block

`BuildMerkleTree` appends one level after the other to `vMerkleTree`, pairing the last hash of
an odd level with itself, and returns the last entry. `GetMerkleBranch` picks from every level the
sibling of the node above a transaction.
-/

namespace HoboNickels

def merkleLevel (c : Crypto) : List Uint256 → List Uint256
  | [] => []
  | [a] => [c.hashPair a a]
  | a :: b :: rest => c.hashPair a b :: merkleLevel c rest

def merkleLevels (c : Crypto) : Nat → List Uint256 → List Uint256
  | 0, level => level
  | fuel + 1, level =>
    if level.length > 1 then level ++ merkleLevels c fuel (merkleLevel c level) else level

def merkleTree (c : Crypto) (b : CBlock) : List Uint256 :=
  merkleLevels c b.vtx.length (b.vtx.map c.txHash)

def buildMerkleTree (c : Crypto) (b : CBlock) : Uint256 := (merkleTree c b).getLastD 0

/-- The loop of `GetMerkleBranch`: `nSize` is the width of the level that starts at `j`. -/
def merkleBranchFrom (vMerkleTree : List Uint256) : Nat → Nat → Nat → Nat → List Uint256
  | 0, _, _, _ => []
  | fuel + 1, nSize, nIndex, j =>
    if nSize > 1 then
      vMerkleTree.getD (j + min (nIndex ^^^ 1) (nSize - 1)) 0 ::
        merkleBranchFrom vMerkleTree fuel ((nSize + 1) / 2) (nIndex / 2) (j + nSize)
    else []

def getMerkleBranch (c : Crypto) (b : CBlock) (nIndex : Nat) : List Uint256 :=
  merkleBranchFrom (merkleTree c b) b.vtx.length b.vtx.length nIndex 0

theorem merkleLevel_length (c : Crypto) :
    ∀ level : List Uint256, (merkleLevel c level).length = (level.length + 1) / 2
  | [] => rfl
  | [_] => by simp [merkleLevel]
  | _ :: _ :: rest => by
    rw [merkleLevel, List.length_cons, merkleLevel_length c rest]
    simp only [List.length_cons]
    omega

end HoboNickels
