import Mathlib.Algebra.Order.Field.Rat
import TelegraphCQ.Foundation.Corners

/-!
# Wavelet summaries

The joint frequencies of several columns, a multi-dimensional array with the side `2 ^ m`, are
summarized by the wavelet coefficients of the greatest normalized magnitude (`wavelet.c`).
The decomposition goes down to the single cells, and on its way back averages and differences
the values at the corners of each block.  The differences of a block become coefficients that
have the block as their support, with a sign for each dimension and cell.

Coordinates that the source writes into one index array are lists here, the ones that were
written first.  The normalized magnitude `vv`, a quotient by a square root, is kept as its
square.
-/

namespace TelegraphCQ.Shedding

open Foundation Function

/-! ## Arrays -/

structure Mda where
  d : Nat
  m : Nat
  a : Nat → ℚ

def Mda.init (d m : Nat) : Mda := ⟨d, m, fun _ => 0⟩

def Mda.get (array : Mda) (i : List Nat) : ℚ := array.a (flat (2 ^ array.m) i)

def Mda.set (array : Mda) (i : List Nat) (v : ℚ) : Mda :=
  { array with a := update array.a (flat (2 ^ array.m) i) v }

/-! ## Coefficients -/

/-- The support of a coefficient in one dimension, and its signs below and above `sc`. -/
structure Dn where
  c : Nat
  rl : Nat
  rh : Nat
  sl : Int
  sh : Int
  sc : Nat
  deriving DecidableEq, Repr

structure Wc where
  e : Bool
  v : ℚ
  vvSquared : ℚ
  dims : List Dn
  deriving DecidableEq, Repr

/-- `WC_compare` gives a negative number. -/
def wcLess : Option Wc → Option Wc → Bool
  | some left, some right => decide (left.vvSquared < right.vvSquared)
  | _, _ => false

/-! ## The priority queue -/

/-- A heap with its least node at 1; `none` is a null pointer. -/
structure Pq where
  maxCount : Nat
  count : Nat
  nodes : Nat → Option Wc

def pqInit (maxCount : Nat) : Pq := ⟨maxCount, 0, fun _ => none⟩

def pqIsFull (pq : Pq) : Bool := pq.count == pq.maxCount

def pqGetMin (pq : Pq) : Option Wc := pq.nodes 1

/-- The way of a new object up from a hole; a hole has at most as many nodes above it as its
number. -/
def percUp (object : Wc) : Nat → Nat → (Nat → Option Wc) → Nat → Option Wc
  | 0, hole, nodes => update nodes hole (some object)
  | rounds + 1, hole, nodes =>
    if wcLess (some object) (nodes (hole / 2)) then
      percUp object rounds (hole / 2) (update nodes hole (nodes (hole / 2)))
    else update nodes hole (some object)

def pqAdd (object : Wc) (pq : Pq) : Bool × Pq :=
  if pq.count = pq.maxCount then (false, pq)
  else
    (true,
      { pq with
        count := pq.count + 1
        nodes := percUp object (pq.count + 1) (pq.count + 1)
          (update pq.nodes 0 (some object)) })

def percDown (count : Nat) (tmp : Option Wc) :
    Nat → Nat → (Nat → Option Wc) → Nat → Option Wc
  | 0, hole, nodes => update nodes hole tmp
  | rounds + 1, hole, nodes =>
    if hole * 2 ≤ count then
      let child :=
        if hole * 2 ≠ count ∧ wcLess (nodes (hole * 2 + 1)) (nodes (hole * 2)) = true then
          hole * 2 + 1
        else hole * 2
      if wcLess (nodes child) tmp then
        percDown count tmp rounds child (update nodes hole (nodes child))
      else update nodes hole tmp
    else update nodes hole tmp

def pqRemoveMin (pq : Pq) : Pq :=
  match pqGetMin pq with
  | none => pq
  | some _ =>
    let nodes := update pq.nodes 1 (pq.nodes pq.count)
    { pq with
      count := pq.count - 1
      nodes := percDown (pq.count - 1) (nodes 1) pq.count 1 nodes }

def wcsAdd (wc : Wc) (coefs : Pq) : Pq :=
  match pqAdd wc coefs with
  | (true, coefs) => coefs
  | (false, coefs) => (pqAdd wc (pqRemoveMin coefs)).2

/-! ## Averaging and differencing -/

/-- The rest of `andx` comes with the rest of `bndx`. -/
def tsubrecur (array : Mda) : List Nat → List (Nat × Nat) → ℚ → ℚ → ℚ
  | andx, [], s, v => v + s * array.get andx
  | andx, (i, b) :: rest, s, v =>
    tsubrecur array (andx ++ [i + 1]) rest (if b = 1 then s * -1 else s)
      (tsubrecur array (andx ++ [i]) rest s v)

def trecur (array : Mda) (andx : List Nat) : Nat → List Nat → Mda → Mda
  | 0, bndx, b => b.set bndx (tsubrecur array [] (andx.zip bndx) 1 0 / 2 ^ array.d)
  | k + 1, bndx, b =>
    trecur array andx k (bndx ++ [1]) (trecur array andx k (bndx ++ [0]) b)

def transhelper (array : Mda) (andx : List Nat) : Mda :=
  trecur array andx array.d [] (Mda.init array.d 1)

def trans (array : Mda) : Mda := transhelper array (List.replicate array.d 0)

/-! ## Decomposition -/

structure CornerState where
  coefs : Pq
  t : Mda
  ti : Nat

def crecur (compute : List Nat → Pq → ℚ × Pq) (half : Nat) :
    List Nat → List Nat → CornerState → CornerState
  | ndx, [], state =>
    let (v, coefs) := compute ndx state.coefs
    ⟨coefs, { state.t with a := update state.t.a state.ti v }, state.ti + 1⟩
  | ndx, orig :: rest, state =>
    crecur compute half (ndx ++ [orig + half]) rest
      (crecur compute half (ndx ++ [orig]) rest state)

def makeDn (m l ndx tndx : Nat) : Dn where
  c := tndx * 2 ^ l + ndx / 2 ^ (m - l)
  rl := ndx
  rh := ndx + 2 ^ (m - l) - 1
  sl := 1
  sh := if tndx = 0 then 1 else -1
  sc := if tndx = 0 then ndx else ndx + 2 ^ (m - l - 1)

def makeWc (m l : Nat) (ndx tndx : List Nat) (v : ℚ) : Wc where
  e := true
  v := v
  vvSquared := v ^ 2 / 2 ^ l
  dims := List.zipWith (makeDn m l) ndx tndx

/-- A coefficient is not stored if an average will replace it, if it is zero, or if the queue
is full of greater ones. -/
def drecurAt (m l : Nat) (ndx : List Nat) (t : Mda) (tndx : List Nat) (coefs : Pq) : Pq :=
  if 0 < l ∧ tndx.all (· == 0) = true then coefs
  else
    let wc := makeWc m l ndx tndx (t.get tndx)
    if t.get tndx = 0 ∨
        (pqIsFull coefs = true ∧ (pqGetMin coefs).isSome = true ∧
          wcLess (some wc) (pqGetMin coefs) = true) then coefs
    else wcsAdd wc coefs

def drecur (m l : Nat) (ndx : List Nat) (t : Mda) : Nat → List Nat → Pq → Pq
  | 0, tndx, coefs => drecurAt m l ndx t tndx coefs
  | k + 1, tndx, coefs =>
    drecur m l ndx t k (tndx ++ [1]) (drecur m l ndx t k (tndx ++ [0]) coefs)

def computeLevels (array : Mda) : Nat → List Nat → Pq → ℚ × Pq
  | 0, ndx, coefs => (array.get ndx, coefs)
  | levels + 1, ndx, coefs =>
    let l := array.m - (levels + 1)
    let state := crecur (computeLevels array levels) (2 ^ (array.m - l - 1)) [] ndx
      ⟨coefs, Mda.init array.d 1, 0⟩
    let tp := trans state.t
    (tp.a 0, drecur array.m l ndx tp array.d [] state.coefs)

def compute (array : Mda) (ndx : List Nat) (coefs : Pq) (l : Nat) : ℚ × Pq :=
  computeLevels array (array.m - l) ndx coefs

/-! ## Rendering -/

def Dn.contains (dn : Dn) (x : Nat) : Bool := decide (dn.rl ≤ x ∧ x ≤ dn.rh)

def Dn.signAt (dn : Dn) (x : Nat) : Int := if x < dn.sc then dn.sl else dn.sh

def Wc.valueAt (wc : Wc) (ndx : List Nat) : ℚ :=
  if wc.e = true ∧ (List.zipWith Dn.contains wc.dims ndx).all id = true then
    ((List.zipWith Dn.signAt wc.dims ndx).prod : ℚ) * wc.v
  else 0

def nodeValueAt (ndx : List Nat) (node : Option Wc) : ℚ := (node.map (Wc.valueAt · ndx)).getD 0

/-- `srrecur` at one cell. -/
def render (coefs : Pq) (ndx : List Nat) : ℚ :=
  ((List.range coefs.count).map fun i => nodeValueAt ndx (coefs.nodes (i + 1))).sum

end TelegraphCQ.Shedding
