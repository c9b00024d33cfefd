import Mathlib.Logic.Function.Basic
import Mathlib.Data.List.Basic

/-!
# A plain file system

Names, inodes and open descriptors, and the content of every inode as a list of `β`: what a program sees of its files when
nothing stands between it and the kernel.

* `Posix ν β` : the names `ν`, the descriptors with the place where each writes next, and the contents;
* `Posix.Does zero refuses c r p p'` : the call `c` returns `r` and takes `p` to `p'`. Gaps are filled with `zero`, and only
  writes of data that `refuses` names may fail on a descriptor that is open for writing;
* `Posix.Runs` : calls one after the other, with their results.
-/

namespace PmemProgram.Lib

@[ext] structure Posix (ν β : Type) where
  dir : ν → Option Nat
  fds : Nat → Option Nat
  /-- Where the descriptor writes next; in append mode that is the end of the file, whatever it is then. -/
  position : Nat → Option Nat
  writable : Nat → Bool
  content : Nat → List β

namespace Posix

/-- How a file is opened. -/
structure Mode where
  creat : Bool
  trunc : Bool
  append : Bool
  writable : Bool

/-- In `open` the descriptor is the one that the kernel chooses. -/
inductive Call (ν β : Type)
  | openFile (name : ν) (mode : Mode) (fd : Nat)
  | write (fd : Nat) (data : List β)
  | sync (fd : Nat)
  | close (fd : Nat)
  | unlink (name : ν)
  | rename (old new : ν)

variable {ν β : Type}

/-- The content `L` after a write of `d` at the position. -/
def put (zero : β) (L : List β) : Option Nat → List β → List β
  | none, d => L ++ d
  | some off, d => L.take off ++ List.replicate (off - L.length) zero ++ d ++ L.drop (off + d.length)

def opened (p : Posix ν β) (mode : Mode) (fd i : Nat) : Posix ν β :=
  { p with
    fds := Function.update p.fds fd (some i)
    position := Function.update p.position fd (if mode.append then none else some 0)
    writable := Function.update p.writable fd mode.writable
    content := if mode.trunc then Function.update p.content i [] else p.content }

def wrote (zero : β) (p : Posix ν β) (fd i : Nat) (d : List β) : Posix ν β :=
  { p with
    content := Function.update p.content i (put zero (p.content i) (p.position fd) d)
    position := Function.update p.position fd ((p.position fd).map (· + d.length)) }

def closed (p : Posix ν β) (fd : Nat) : Posix ν β := { p with fds := Function.update p.fds fd none }

section
variable [DecidableEq ν]

def created (p : Posix ν β) (name : ν) (i : Nat) : Posix ν β :=
  { p with dir := Function.update p.dir name (some i), content := Function.update p.content i [] }

def unlinked (p : Posix ν β) (name : ν) : Posix ν β := { p with dir := Function.update p.dir name none }

def renamed (p : Posix ν β) (old new : ν) : Posix ν β :=
  if old = new ∨ p.dir old = none then p
  else { p with dir := Function.update (Function.update p.dir new (p.dir old)) old none }

/-- The result of a call that needs `o`. -/
def found (o : Option Nat) : Int := if o.isSome then 0 else -1

/-- Nothing has the inode `i`. -/
def Unused (p : Posix ν β) (i : Nat) : Prop := (∀ name, p.dir name ≠ some i) ∧ ∀ fd, p.fds fd ≠ some i

variable (zero : β) (refuses : List β → Prop)

/-- A write of nothing is not even looked at. -/
inductive Does : Call ν β → Int → Posix ν β → Posix ν β → Prop
  | opened {p : Posix ν β} {name : ν} {mode : Mode} {fd i : Nat} : p.dir name = some i →
      Does (.openFile name mode fd) fd p (p.opened mode fd i)
  | created {p : Posix ν β} {name : ν} {mode : Mode} {fd i : Nat} : p.dir name = none → mode.creat = true → p.Unused i →
      Does (.openFile name mode fd) fd p ((p.created name i).opened mode fd i)
  | missing {p : Posix ν β} {name : ν} {mode : Mode} {fd : Nat} : p.dir name = none → mode.creat = false →
      Does (.openFile name mode fd) (-1) p p
  | nothing {p : Posix ν β} {fd : Nat} : Does (.write fd []) 0 p p
  | wrote {p : Posix ν β} {fd i : Nat} {d : List β} : p.fds fd = some i → p.writable fd = true → d ≠ [] →
      Does (.write fd d) d.length p (p.wrote zero fd i d)
  | refused {p : Posix ν β} {fd : Nat} {d : List β} : p.fds fd = none ∨ p.writable fd = false ∨ refuses d → d ≠ [] →
      Does (.write fd d) (-1) p p
  | sync {p : Posix ν β} {fd : Nat} : Does (.sync fd) (found (p.fds fd)) p p
  | close {p : Posix ν β} {fd : Nat} : Does (.close fd) (found (p.fds fd)) p (p.closed fd)
  | unlink {p : Posix ν β} {name : ν} : Does (.unlink name) (found (p.dir name)) p (p.unlinked name)
  | rename {p : Posix ν β} {old new : ν} : Does (.rename old new) (found (p.dir old)) p (p.renamed old new)

/-- Calls with their results. -/
inductive Runs (p : Posix ν β) : List (Call ν β × Int) → Posix ν β → Prop
  | start : Runs p [] p
  | call {trace : List (Call ν β × Int)} {p₁ p₂ : Posix ν β} {c : Call ν β} {r : Int} : Runs p trace p₁ →
      Does zero refuses c r p₁ p₂ → Runs p (trace ++ [(c, r)]) p₂

end

end Posix

end PmemProgram.Lib
