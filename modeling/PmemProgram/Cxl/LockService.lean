import PmemProgram.Cxl.HashKv

/-!
# The lock service and its clients (`lock_service.c`, `lock.c`, `lock_write.c`, `lock_read.c`)

* `handleLock` : the server's answer to one request word; a table value is `-1` (no node), `0` (free), `1` (write
  locked) or `2 n` (`n` readers);
* `lockWord` : the request words of `writelock`, `readlock` and `releaselock`; `indicator_lockWord`,
  `blockid_lockWord` : the server reads back the indicator and the block;
* `Net`, `Step` : any number of clients in the loops of `lock_write.c` and `lock_read.c`, with the words and the
  replies in flight on each connection.
-/

namespace PmemProgram.Cxl

/-- A C `int` as it travels over the socket. -/
abbrev Word := BitVec 32

/-- `lock_type`. -/
inductive LockType
  | release
  | read
  | write
  | error
  deriving DecidableEq, Repr

/-- The values of the enumerators `RELEASE_LOCK`, `READ_LOCK`, `WRITE_LOCK`, `ERROR_LOCK`. -/
def LockType.code : LockType → Nat
  | release => 0
  | read => 1
  | write => 2
  | error => 3

/-! ## The server -/

/-- `x & 3`. -/
def indicator (x : Word) : Word := x &&& 3

/-- `(long int)((x & 0xfffffffc) >> 2)`. -/
def blockid (x : Word) : Int := ((x &&& 0xfffffffc#32) >>> 2).toNat

/-- `handle_lock`: the new table and the reply, if one is written to the socket; `none` is the failed
`assert(0)` of an error indicator. -/
def handleLock (alloc : Bool) (table : HashTable) (x : Word) : Option (HashTable × Option Int) :=
  let value := getKeyValue table (blockid x)
  if indicator x = 2 then
    if value = -1 ∨ value = 0 then some (setKeyValue alloc table (blockid x) 1, some 1)
    else some (table, some 0)
  else if indicator x = 1 then
    if value = 1 ∨ value = -1 then some (table, some 0)
    else some (setKeyValue alloc table (blockid x) ((value >>> (1 : Nat) + 1) <<< (1 : Nat)), some 1)
  else if indicator x = 0 then
    -- a release gets no reply
    if value = 1 then some (setKeyValue alloc table (blockid x) 0, none)
    else if value ≠ 0 ∧ value ≠ -1 then some (setKeyValue alloc table (blockid x) ((value >>> (1 : Nat) - 1) <<< (1 : Nat)), none)
    else some (table, none)
  else none

theorem indicator_cases {x : Word} (hx : indicator x ≠ 3) : indicator x = 0 ∨ indicator x = 1 ∨ indicator x = 2 := by
  have hlt : (indicator x).toNat < 4 := by
    have hmod : x.toNat &&& 3 = x.toNat % 4 := Nat.and_two_pow_sub_one_eq_mod x.toNat 2
    have he : (indicator x).toNat = x.toNat &&& 3 := BitVec.toNat_and ..
    omega
  have h3 : (indicator x).toNat ≠ 3 := fun he => hx (BitVec.eq_of_toNat_eq he)
  rcases (show (indicator x).toNat = 0 ∨ (indicator x).toNat = 1 ∨ (indicator x).toNat = 2 by omega) with he | he | he
  · exact Or.inl (BitVec.eq_of_toNat_eq he)
  · exact Or.inr (Or.inl (BitVec.eq_of_toNat_eq he))
  · exact Or.inr (Or.inr (BitVec.eq_of_toNat_eq he))

/-- Only the error indicator stops the server. -/
theorem handleLock_isSome (alloc : Bool) (table : HashTable) {x : Word} (hx : indicator x ≠ 3) :
    (handleLock alloc table x).isSome := by
  unfold handleLock
  rcases indicator_cases hx with hi | hi | hi
  · simp only [hi]
    split_ifs <;> rfl
  · simp only [hi]
    split_ifs <;> rfl
  · simp only [hi]
    split_ifs <;> rfl

/-! ## The request words -/

/-- `uuid << 2 | type`. -/
def lockWord (type : LockType) (uuid : Nat) : Word := BitVec.ofNat 32 uuid <<< 2 ||| BitVec.ofNat 32 type.code

theorem toNat_lockWord (type : LockType) {uuid : Nat} (h : uuid < 2 ^ 30) :
    (lockWord type uuid).toNat = uuid <<< 2 + type.code := by
  have hc : type.code < 2 ^ 2 := by cases type <;> decide
  rw [Nat.shiftLeft_add_eq_or_of_lt hc]
  simp only [lockWord, BitVec.toNat_or, BitVec.toNat_shiftLeft, BitVec.toNat_ofNat]
  rw [Nat.mod_eq_of_lt (show uuid < 2 ^ 32 by omega), Nat.mod_eq_of_lt (show type.code < 2 ^ 32 by omega),
    Nat.mod_eq_of_lt (by rw [Nat.shiftLeft_eq]; omega)]

theorem indicator_lockWord (type : LockType) {uuid : Nat} (h : uuid < 2 ^ 30) :
    indicator (lockWord type uuid) = BitVec.ofNat 32 type.code := by
  have hc : type.code < 4 := by cases type <;> decide
  apply BitVec.eq_of_toNat_eq
  simp only [indicator, BitVec.toNat_and, toNat_lockWord type h, BitVec.toNat_ofNat]
  rw [show (3 : Word).toNat = 2 ^ 2 - 1 from rfl, Nat.and_two_pow_sub_one_eq_mod, Nat.shiftLeft_eq]
  omega

theorem blockid_lockWord (type : LockType) {uuid : Nat} (h : uuid < 2 ^ 30) : blockid (lockWord type uuid) = uuid := by
  have hc : type.code < 4 := by cases type <;> decide
  unfold blockid
  simp only [BitVec.toNat_ushiftRight, BitVec.toNat_and, toNat_lockWord type h]
  rw [show (0xfffffffc#32).toNat = (2 ^ 30 - 1) <<< 2 from rfl, Nat.shiftRight_and_distrib, Nat.shiftLeft_shiftRight,
    Nat.and_two_pow_sub_one_eq_mod, Nat.shiftRight_eq_div_pow, Nat.shiftLeft_eq]
  congr 1
  omega

/-! ## The clients -/

/-- `BLOCK_NUM`. -/
def blockNum : Nat := 255

/-- Which of the two client programs runs: `lock_write.c` or `lock_read.c`. -/
inductive Role
  | writer
  | reader
  deriving DecidableEq, Repr

/-- The request of a client's loop: `writelock` or `readlock`. -/
def Role.request : Role → LockType
  | writer => .write
  | reader => .read

/-- Where a client is in its loop: at the top, in the lock loop waiting for a reply, or in the critical section. -/
inductive Phase
  | top
  | waiting (uuid : Nat)
  | critical (uuid : Nat)
  deriving DecidableEq, Repr

/-- The server's table, the clients, and the messages in flight on each connection. -/
structure Net (ι : Type) where
  table : HashTable
  phase : ι → Phase
  /-- Request words sent and not yet received by the server. -/
  up : ι → List Word
  /-- Replies sent and not yet read by the client. -/
  down : ι → List Int

section
variable {ι : Type} [DecidableEq ι] (role : ι → Role)

/-- Before any message. -/
def Net.init : Net ι := ⟨createHashTable, fun _ => .top, fun _ => [], fun _ => []⟩

/-- The client of connection `c` sends a word and moves to `p`. -/
def Net.send (s : Net ι) (c : ι) (p : Phase) (x : Word) : Net ι :=
  { s with phase := Function.update s.phase c p, up := Function.update s.up c (s.up c ++ [x]) }

/-- The server receives the oldest word of `c` and writes its reply. -/
def Net.reply (s : Net ι) (c : ι) (rest : List Word) (table : HashTable) (r : Option Int) : Net ι :=
  { s with
    table := table
    up := Function.update s.up c rest
    down := Function.update s.down c (s.down c ++ r.toList) }

/-- One step of the system. -/
inductive Step : Net ι → Net ι → Prop
  /-- `random_select_block`, then the first `send` of `writelock` or `readlock`. -/
  | request {s c uuid} : s.phase c = .top → uuid < blockNum →
      Step s (s.send c (.waiting uuid) (lockWord (role c).request uuid))
  /-- `recv` of one word and `handle_lock`. -/
  | serve {s c x rest table r} : s.up c = x :: rest → handleLock true s.table x = some (table, r) →
      Step s (s.reply c rest table r)
  /-- The reply is `1`: the lock loop ends. -/
  | granted {s c uuid rest} : s.phase c = .waiting uuid → s.down c = 1 :: rest →
      Step s { s with phase := Function.update s.phase c (.critical uuid), down := Function.update s.down c rest }
  /-- Any other reply: the lock loop sends its word again. -/
  | refused {s c uuid v rest} : s.phase c = .waiting uuid → s.down c = v :: rest → v ≠ 1 →
      Step s ({ s with down := Function.update s.down c rest }.send c (.waiting uuid)
        (lockWord (role c).request uuid))
  /-- The end of the critical section and `releaselock`. -/
  | release {s c uuid} : s.phase c = .critical uuid → Step s (s.send c .top (lockWord .release uuid))

/-- The states the system can reach. -/
def Reachable (s : Net ι) : Prop := Relation.ReflTransGen (Step role) Net.init s

end

end PmemProgram.Cxl
