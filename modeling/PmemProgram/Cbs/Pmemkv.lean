import PmemProgram.Cbs.Pmem
import PmemProgram.Lib.Machine

/-!
# The store in a key-value engine (`cbs_req_pmemkv.cpp`)

The key of a request is its id as `sprintf` writes it with `%ld` into 20 bytes. The engine is a parameter.

* `Engine`, `Documented` : the calls of the engine, and what is known of them;
* `writeReq`, `readReq`, `deletePage`, `getKeyCount` : the requests;
* `sprintfLd_injective`, `fits_iff` : ids have different keys, and which keys fit;
* `pmemkv_is_map` : the store is a map from ids to pages without deletion, and fails exactly where a key does not fit or a
  page is read that has not been written.
-/

namespace PmemProgram.Cbs.Pmemkv
open PmemProgram.Lib

abbrev Key := List Char

/-- `pmemkv_put` when it succeeds, `pmemkv_get` with `none` for `PMEMKV_STATUS_NOT_FOUND`, and `pmemkv_count_all`. -/
structure Engine where
  Db : Type
  put : Db → Key → Page → Db
  get : Db → Key → Option Page
  countAll : Db → Nat

/-- The engine stores values under keys, and counts the keys. -/
structure Documented (e : Engine) (content : e.Db → Key → Option Page) : Prop where
  put : ∀ d k v, content (e.put d k v) = Function.update (content d) k (some v)
  get : ∀ d k, e.get d k = content d k
  countAll : ∀ d, e.countAll d = Set.ncard {k | content d k ≠ none}

/-- Does `pmemkv_put` succeed. -/
inductive Ask
  | put

/-- Every `pmemkv_put` succeeds. -/
def Granted (_ : Ask) (n : Nat) : Prop := n = 0

theorem granted_zero (q : Ask) : Granted q 0 := rfl

/-- What `sprintf` writes for `%ld`, without the closing zero. -/
def sprintfLd (reqId : BitVec 64) : Key :=
  if reqId.toInt < 0 then '-' :: Nat.toDigits 10 reqId.toInt.natAbs else Nat.toDigits 10 reqId.toInt.natAbs

/-- The key and the closing zero are inside of `char str[20]`. -/
def Fits (reqId : BitVec 64) : Prop := (sprintfLd reqId).length + 1 ≤ 20

instance : DecidablePred Fits := fun _ => inferInstanceAs (Decidable (_ ≤ 20))

section
variable (e : Engine)

/-- `write_req`. -/
def writeReq (reqId : BitVec 64) (content : Page) : Cmd Ask e.Db Int := do
  Cmd.check (Fits reqId)
  let ok ← Cmd.succeeds .put
  Cmd.check (ok = true)
  Cmd.modify fun d => e.put d (sprintfLd reqId) content
  return 0

/-- `read_req`: what `pmemkv_get_value` copies to the caller. -/
def readReq (reqId : BitVec 64) : Cmd Ask e.Db (Option Page) := do
  Cmd.check (Fits reqId)
  let value ← Cmd.get fun d => e.get d (sprintfLd reqId)
  Cmd.check (value.isSome = true)
  return value

/-- `delete_page`. -/
def deletePage (_reqId : BitVec 64) : Cmd Ask e.Db Unit := return ()

/-- `get_key_count`. -/
def getKeyCount (d : e.Db) : Nat := e.countAll d

inductive Op
  | write (r : BitVec 64) (c : Page)
  | read (r : BitVec 64)
  | delete (r : BitVec 64)

def perform : Op → Cmd Ask e.Db (Option Page)
  | .write r c => do
    let _ ← writeReq e r c
    return none
  | .read r => readReq e r
  | .delete r => do
    deletePage e r
    return none

abbrev serveAll (ops : List Op) : Cmd Ask e.Db (List (Option Page)) := Machine.serveAll (perform e) ops

end

/-- A request to a map from which nothing is deleted. -/
def mapStep (M : BitVec 64 → Option Page) : Op → (BitVec 64 → Option Page) × Option Page
  | .write r c => (Function.update M r (some c), none)
  | .read r => (M, M r)
  | .delete _ => (M, none)

/-- Ids whose signed value has at most 18 digits after the sign, or 19 digits without one. -/
def Short (r : BitVec 64) : Prop := r.toNat < 2 ^ 63 ∨ 2 ^ 64 - 10 ^ 18 < r.toNat

/-- The key fits, and a page that is read is there. -/
def Accepted (M : BitVec 64 → Option Page) : Op → Prop
  | .write r _ => Short r
  | .read r => Short r ∧ M r ≠ none
  | .delete _ => True

/-! ## Keys -/

theorem natAbs_of_nonneg {r : BitVec 64} (h : ¬ r.toInt < 0) : r.toNat < 2 ^ 63 ∧ r.toInt.natAbs = r.toNat := by
  rw [BitVec.toInt_eq_toNat_cond] at h ⊢
  split_ifs at h ⊢ with hlt
  · omega
  · omega

theorem natAbs_of_neg {r : BitVec 64} (h : r.toInt < 0) : 2 ^ 63 ≤ r.toNat ∧ r.toInt.natAbs = 2 ^ 64 - r.toNat := by
  have hlt := r.isLt
  rw [BitVec.toInt_eq_toNat_cond] at h ⊢
  split_ifs at h ⊢ with hsmall
  · omega
  · omega

theorem fits_iff (r : BitVec 64) : Fits r ↔ Short r := by
  have hdigits : ∀ n k, (Nat.toDigits 10 n).length ≤ k + 1 ↔ n < 10 ^ (k + 1) := fun n k =>
    Nat.length_toDigits_le_iff (by decide) (Nat.succ_pos k)
  have hlt := r.isLt
  rw [Fits, sprintfLd, Short]
  by_cases hneg : r.toInt < 0
  · obtain ⟨hlarge, habs⟩ := natAbs_of_neg hneg
    have hfew := hdigits r.toInt.natAbs 17
    rw [if_pos hneg, List.length_cons]
    rw [habs] at hfew ⊢
    omega
  · obtain ⟨hsmall, habs⟩ := natAbs_of_nonneg hneg
    have hfew := hdigits r.toInt.natAbs 18
    rw [if_neg hneg]
    rw [habs] at hfew ⊢
    omega

theorem toDigits_injective : Function.Injective (Nat.toDigits 10) := fun n m h => by
  have hparsed := congrArg (fun digits => Nat.ofDigitChars 10 digits 0) h
  simpa using hparsed

/-- Digits are not a sign. -/
theorem toDigits_ne_neg (n : Nat) (l : List Char) : Nat.toDigits 10 n ≠ '-' :: l := by
  intro h
  have hdigit : '-'.isDigit = true :=
    Nat.isDigit_of_mem_toDigits (by decide) (by decide) (h ▸ List.mem_cons_self)
  exact absurd hdigit (by decide)

/-- **Different ids have different keys.** -/
theorem sprintfLd_injective : Function.Injective sprintfLd := by
  intro r q h
  rw [sprintfLd, sprintfLd] at h
  by_cases hr : r.toInt < 0
  · by_cases hq : q.toInt < 0
    · rw [if_pos hr, if_pos hq, List.cons.injEq] at h
      have habs := toDigits_injective h.2
      exact BitVec.eq_of_toInt_eq (by omega)
    · rw [if_pos hr, if_neg hq] at h
      exact absurd h.symm (toDigits_ne_neg _ _)
  · by_cases hq : q.toInt < 0
    · rw [if_neg hr, if_pos hq] at h
      exact absurd h (toDigits_ne_neg _ _)
    · rw [if_neg hr, if_neg hq] at h
      have habs := toDigits_injective h
      exact BitVec.eq_of_toInt_eq (by omega)

/-! ## The map -/

variable {e : Engine} {content : e.Db → Key → Option Page} {d : e.Db} {M : BitVec 64 → Option Page} {r : BitVec 64}
  {c : Page}

/-- The engine has the pages of the map under their keys, and nothing else. -/
structure Holds (content : e.Db → Key → Option Page) (d : e.Db) (M : BitVec 64 → Option Page) : Prop where
  page : ∀ r, content d (sprintfLd r) = M r
  other : ∀ k, k ∉ Set.range sprintfLd → content d k = none

theorem Holds.put (he : Documented e content) (h : Holds content d M) :
    Holds content (e.put d (sprintfLd r) c) (Function.update M r (some c)) := by
  refine ⟨fun q => ?_, fun k hk => ?_⟩
  · rw [he.put, Function.update_apply, Function.update_apply, h.page]
    simp only [sprintfLd_injective.eq_iff]
  · have hne : k ≠ sprintfLd r := fun heq => hk ⟨r, heq.symm⟩
    rw [he.put, Function.update_of_ne hne, h.other k hk]

theorem Holds.count (he : Documented e content) (h : Holds content d M) :
    getKeyCount e d = Set.ncard {r | M r ≠ none} := by
  have hkeys : {k | content d k ≠ none} = sprintfLd '' {r | M r ≠ none} := by
    ext k
    constructor
    · intro hk
      by_cases hrange : k ∈ Set.range sprintfLd
      · obtain ⟨r, rfl⟩ := hrange
        exact ⟨r, fun hnone => hk ((h.page r).trans hnone), rfl⟩
      · exact absurd (h.other k hrange) hk
    · rintro ⟨r, hr, rfl⟩
      exact fun hnone => hr ((h.page r).symm.trans hnone)
  rw [getKeyCount, he.countAll, hkeys, Set.ncard_image_of_injective _ sprintfLd_injective]

/-- Weakest precondition without interference, and without a failing `pmemkv_put`. -/
abbrev kwp {α : Type} (c : Cmd Ask e.Db α) (Q : α → e.Db → Prop) (d : e.Db) : Prop :=
  Cmd.wp (fun s t => s = t) (fun _ n => n = 0) (fun _ => True) c Q d

theorem wp_perform (he : Documented e content) {op : Op} (h : Holds content d M) (hop : Accepted M op) :
    kwp (perform e op) (fun x t => x = (mapStep M op).2 ∧ Holds content t (mapStep M op).1) d := by
  cases op with
  | write r c =>
    have hfits : Fits r := (fits_iff r).mpr hop
    simp only [kwp, perform, writeReq, Cmd.wp_bind, Cmd.wp_check, Cmd.wp_succeeds, Cmd.wp_modify, Cmd.wp_pure]
    refine ⟨hfits, fun n hn => ⟨?_, rfl, h.put he⟩⟩
    rw [hn]
    rfl
  | read r =>
    have hfits : Fits r := (fits_iff r).mpr hop.1
    have hget : e.get d (sprintfLd r) = M r := (he.get d _).trans (h.page r)
    simp only [kwp, perform, readReq, Cmd.wp_bind, Cmd.wp_check, Cmd.wp_get, Cmd.wp_pure, hget]
    exact ⟨hfits, Option.isSome_iff_ne_none.mpr hop.2, rfl, h⟩
  | delete r => exact ⟨rfl, h⟩

theorem aborts_perform (he : Documented e content) {op : Op} (h : Holds content d M) (hop : ¬ Accepted M op) :
    Cmd.Aborts (fun s t => s = t) Granted (perform e op) d := by
  have hcheck : ∀ {α : Type} (r : BitVec 64) (k : Cmd Ask e.Db α), ¬ Short r →
      Cmd.Aborts (fun s t => s = t) Granted (Cmd.check (Fits r) >>= fun _ => k) d := fun r k hr => by
    rw [Cmd.check, if_neg fun hfits => hr ((fits_iff r).mp hfits)]
    exact .abort
  cases op with
  | write r c => exact Cmd.Aborts.bind_left _ (hcheck r _ hop)
  | read r =>
    by_cases hr : Short r
    · have hnone : e.get d (sprintfLd r) = none := by
        rw [he.get, h.page r]
        exact not_not.mp fun hM => hop ⟨hr, hM⟩
      refine Cmd.exec_none_aborts (fun _ => rfl) granted_zero ?_ ?_
      · exact Cmd.total_bind (Cmd.total_check _) fun _ => Cmd.total_bind (Cmd.total_get _) fun _ =>
          Cmd.total_bind (Cmd.total_check _) fun _ => Cmd.total_pure _
      · simp [perform, readReq, hnone, (fits_iff r).mpr hr]
    · exact hcheck r _ hr
  | delete r => exact absurd trivial hop

theorem total_perform (op : Op) : (perform e op).Total := by
  cases op with
  | write r c =>
    exact Cmd.total_bind (Cmd.total_bind (Cmd.total_check _) fun _ => Cmd.total_bind (Cmd.total_succeeds _) fun _ =>
      Cmd.total_bind (Cmd.total_check _) fun _ => Cmd.total_bind (Cmd.total_modify _) fun _ => Cmd.total_pure _)
      fun _ => Cmd.total_pure _
  | read r =>
    exact Cmd.total_bind (Cmd.total_check _) fun _ => Cmd.total_bind (Cmd.total_get _) fun _ =>
      Cmd.total_bind (Cmd.total_check _) fun _ => Cmd.total_pure _
  | delete r => exact Cmd.total_bind (Cmd.total_pure _) fun _ => Cmd.total_pure _

theorem wp_serveAll (he : Documented e content) {ops : List Op} (h : Holds content d M)
    (hops : Machine.Allowed mapStep Accepted M ops) :
    kwp (serveAll e ops) (fun xs t => xs = (Machine.answers mapStep M ops).2 ∧
      Holds content t (Machine.answers mapStep M ops).1) d :=
  Machine.wp_serveAll (fun _ _ _ h hop => wp_perform he h hop) h hops

/-- **The store is a map without deletion.** Different ids have different keys. If no `pmemkv_put` fails, the requests fail
exactly if at one of them a key does not fit or a page is read that has not been written before; otherwise they answer like
the map, in which `delete_page` does nothing, and the engine has as many keys as the map has pages. -/
theorem pmemkv_is_map (he : Documented e content) (hd : content d = fun _ => none) (ops : List Op) :
    Function.Injective sprintfLd ∧
      (Cmd.Aborts (fun s t => s = t) Granted (serveAll e ops) d ↔
        ¬ Machine.Allowed mapStep Accepted (fun _ => none) ops) ∧
      (Machine.Allowed mapStep Accepted (fun _ => none) ops →
        ∀ xs t, Cmd.Run (fun s t => s = t) Granted (serveAll e ops) d xs t →
          xs = (Machine.answers mapStep (fun _ => none) ops).2 ∧
            getKeyCount e t = Set.ncard {r | (Machine.answers mapStep (fun _ => none) ops).1 r ≠ none}) := by
  have hstart : Holds content d fun _ => none := ⟨fun r => congrFun hd _, fun k _ => congrFun hd k⟩
  refine ⟨sprintfLd_injective, ⟨fun hfail hops => Cmd.wp_not_aborts (wp_serveAll he hstart hops) hfail, fun hops => ?_⟩,
    fun hops xs t hrun => ?_⟩
  · exact Machine.aborts_serveAll (fun _ => rfl) (fun _ => rfl) total_perform (fun _ _ _ h hop => wp_perform he h hop)
      (fun _ _ _ h hop => aborts_perform he h hop) hstart hops
  · obtain ⟨hxs, ht⟩ := Cmd.wp_run (wp_serveAll he hstart hops) hrun
    exact ⟨hxs, ht.count he⟩

/-- An engine that keeps a list of what is put. -/
def listEngine : Engine where
  Db := List (Key × Page)
  put d k v := (k, v) :: d
  get d k := d.lookup k
  countAll d := (d.map Prod.fst).toFinset.card

theorem lookup_put (l : List (Key × Page)) (k : Key) (v : Page) :
    (fun q => List.lookup q ((k, v) :: l)) = Function.update (fun q => l.lookup q) k (some v) := by
  funext q
  rw [List.lookup_cons, Function.update_apply]
  by_cases hq : q = k
  · have hkey : (q == k) = true := beq_iff_eq.mpr hq
    rw [if_pos hq, hkey]
  · have hkey : (q == k) = false := beq_eq_false_iff_ne.mpr hq
    rw [if_neg hq, hkey]

theorem lookup_keys (l : List (Key × Page)) : {k | l.lookup k ≠ none} = ↑(l.map Prod.fst).toFinset := by
  ext k
  simp [List.lookup_eq_none_iff]

theorem listEngine_documented : Documented listEngine fun (d : List (Key × Page)) k => d.lookup k := by
  refine ⟨lookup_put, fun _ _ => rfl, fun d => ?_⟩
  have hcard : Set.ncard {k | List.lookup k d ≠ none} = (List.map Prod.fst d).toFinset.card := by
    rw [lookup_keys d, Set.ncard_coe_finset]
  exact hcard.symm

/-- The last of all ids has the key `-1`; a deleted page is still there. -/
theorem pmemkv_is_map_deleted : ∃ t, Cmd.Run (fun s t => s = t) Granted
    (serveAll listEngine [.write 0xffffffffffffffff (fun _ => 1), .delete 0xffffffffffffffff, .read 0xffffffffffffffff])
      [] [none, none, some fun _ => 1] t := by
  have hops : Machine.Allowed mapStep Accepted (fun _ => none)
      [.write 0xffffffffffffffff (fun _ => 1), .delete 0xffffffffffffffff, .read 0xffffffffffffffff] := by
    simp [Machine.Allowed, mapStep, Accepted, Short]
  obtain ⟨-, hfail, hall⟩ := pmemkv_is_map listEngine_documented (d := []) rfl
    [.write 0xffffffffffffffff (fun _ => 1), .delete 0xffffffffffffffff, .read 0xffffffffffffffff]
  obtain ⟨xs, t, hrun⟩ := Cmd.returns (fun _ => rfl) (fun q => ⟨0, granted_zero q⟩) (Machine.total_serveAll total_perform _)
    fun habort => hfail.mp habort hops
  obtain ⟨rfl, -⟩ := hall hops xs t hrun
  exact ⟨t, by simpa [Machine.answers, mapStep] using hrun⟩

end PmemProgram.Cbs.Pmemkv
