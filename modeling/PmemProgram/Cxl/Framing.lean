import PmemProgram.Cxl.LockService

/-!
# The request words in the byte streams (`lock_service.c`, `main`)

The clients send words of four bytes over TCP, and the server takes from a connection what one `recv` gives it, into the
buffer `x` that all connections share; every `recv` that returns data is followed by `handle_lock`.

* `Buffer`, `wordBytes` : the four bytes of `x` and of a word, lowest first;
* `Server`, `recvLock`, `selectLoop` : the loop over the ready descriptors;
* `framing_iff` : the words handled are the words sent exactly when every `recv` returns four bytes.
-/

namespace PmemProgram.Cxl

abbrev Byte := BitVec 8

/-- The bytes of `int x`. -/
abbrev Buffer := Fin 4 → Byte

def Buffer.word (x : Buffer) : Word :=
  BitVec.ofNat 32 ((x 0).toNat + 2 ^ 8 * (x 1).toNat + 2 ^ 16 * (x 2).toNat + 2 ^ 24 * (x 3).toNat)

/-- The bytes `send` gives to the connection for a word. -/
def wordBytes (w : Word) : List Byte :=
  [BitVec.ofNat 8 w.toNat, BitVec.ofNat 8 (w.toNat / 2 ^ 8), BitVec.ofNat 8 (w.toNat / 2 ^ 16),
    BitVec.ofNat 8 (w.toNat / 2 ^ 24)]

/-- `recv` into `x` leaves the bytes it does not reach as they were. -/
def Buffer.fill (x : Buffer) (bs : List Byte) : Buffer := fun i => bs[i.val]?.getD (x i)

theorem word_fill_wordBytes (x : Buffer) (w : Word) : (x.fill (wordBytes w)).word = w := by
  apply BitVec.eq_of_toNat_eq
  have hw := w.isLt
  simp only [Buffer.word, Buffer.fill, wordBytes, BitVec.toNat_ofNat, List.getElem?_cons_zero, List.getElem?_cons_succ,
    Fin.val_zero, Fin.val_one, Fin.val_two, Option.getD_some, show (3 : Fin 4).val = 3 from rfl]
  omega

/-! ## The server loop -/

/-- The shared buffer, the table, the bytes each connection has still to deliver, and the words handled for it. -/
structure Server (ι : Type) where
  x : Buffer
  table : HashTable
  stream : ι → List Byte
  handled : ι → List Word

section
variable {ι : Type} [DecidableEq ι]

/-- Before the first `recv`, with the words of the clients under way. -/
def Server.start (x : Buffer) (table : HashTable) (sent : ι → List Word) : Server ι :=
  ⟨x, table, fun c => (sent c).flatMap wordBytes, fun _ => []⟩

/-- `recv` of `k` bytes from the connection `c`, and `handle_lock`; `none` if that aborts. -/
def recvLock (alloc : Bool) (s : Server ι) (e : ι × Nat) : Option (Server ι) :=
  let bs := (s.stream e.1).take e.2
  -- nothing received: the connection is closed
  if bs.length = 0 then some s
  else
    let x := s.x.fill bs
    (handleLock alloc s.table x.word).map fun r =>
      { x := x
        table := r.1
        stream := Function.update s.stream e.1 ((s.stream e.1).drop e.2)
        handled := Function.update s.handled e.1 (s.handled e.1 ++ [x.word]) }

/-- The rounds of `select`, each with the ready connections and the bytes they deliver. -/
def selectLoop (alloc : Bool) (s : Server ι) (rounds : List (List (ι × Nat))) : Option (Server ι) :=
  rounds.foldlM (fun s round => round.foldlM (recvLock alloc) s) s

/-- The bytes that `c` delivers in `es`. -/
def delivered (c : ι) (es : List (ι × Nat)) : Nat := ((es.filter fun e => e.1 = c).map Prod.snd).sum

/-- The streams are cut into deliveries of 1 to 4 bytes, and all of them are delivered. -/
structure IsCut (sent : ι → List Word) (rounds : List (List (ι × Nat))) : Prop where
  size : ∀ e ∈ rounds.flatten, 1 ≤ e.2 ∧ e.2 ≤ 4
  whole : ∀ c, delivered c rounds.flatten = 4 * (sent c).length

theorem selectLoop_flatten (alloc : Bool) (s : Server ι) (rounds : List (List (ι × Nat))) :
    selectLoop alloc s rounds = rounds.flatten.foldlM (recvLock alloc) s := by
  unfold selectLoop
  induction rounds generalizing s with
  | nil => rfl
  | cons round rounds ih =>
    rw [List.foldlM_cons, List.flatten_cons, List.foldlM_append]
    exact bind_congr fun t => ih t

theorem delivered_cons (c : ι) (e : ι × Nat) (es : List (ι × Nat)) :
    delivered c (e :: es) = (if e.1 = c then e.2 else 0) + delivered c es := by
  unfold delivered
  by_cases h : e.1 = c <;> simp [h]

/-- One `recv` of a connection with bytes left handles one word. -/
theorem recvLock_handled {alloc : Bool} {s t : Server ι} {e : ι × Nat} (h : recvLock alloc s e = some t) (he : 1 ≤ e.2)
    (hle : e.2 ≤ (s.stream e.1).length) (c : ι) :
    (t.stream c).length = (s.stream c).length - (if e.1 = c then e.2 else 0) ∧
      (t.handled c).length = (s.handled c).length + if e.1 = c then 1 else 0 := by
  unfold recvLock at h
  have hlen : ¬ ((s.stream e.1).take e.2).length = 0 := by
    rw [List.length_take]
    omega
  dsimp only at h
  rw [if_neg hlen] at h
  obtain ⟨r, -, rfl⟩ := Option.map_eq_some_iff.mp h
  by_cases hc : e.1 = c
  · subst hc
    simp
  · simp [hc, Ne.symm hc]

/-- As many words are handled for a connection as it has deliveries. -/
theorem foldlM_handled {alloc : Bool} {s t : Server ι} {es : List (ι × Nat)} (hsize : ∀ e ∈ es, 1 ≤ e.2)
    (hs : ∀ c, (s.stream c).length = delivered c es) (h : es.foldlM (recvLock alloc) s = some t) (c : ι) :
    (t.handled c).length = (s.handled c).length + (es.filter fun e => e.1 = c).length := by
  induction es generalizing s with
  | nil =>
    cases h
    simp
  | cons e es ih =>
    rw [List.foldlM_cons] at h
    obtain ⟨u, hu, h⟩ := Option.bind_eq_some_iff.mp h
    have hle : e.2 ≤ (s.stream e.1).length := by
      rw [hs, delivered_cons, if_pos rfl]
      omega
    have hstep := recvLock_handled hu (hsize e List.mem_cons_self) hle
    rw [ih (fun e' he' => hsize e' (List.mem_cons_of_mem e he')) (fun d => ?_) h, (hstep c).2]
    · by_cases hc : e.1 = c <;> simp [hc]
      omega
    · rw [(hstep d).1, hs d, delivered_cons]
      omega

/-- A word received as a whole is handled as it was sent. -/
theorem recvLock_whole {alloc : Bool} {s : Server ι} {c : ι} {w : Word} {ws : List Word}
    (hs : s.stream c = (w :: ws).flatMap wordBytes) (hw : indicator w ≠ 3) :
    ∃ t, recvLock alloc s (c, 4) = some t ∧ t.stream = Function.update s.stream c (ws.flatMap wordBytes) ∧
      t.handled = Function.update s.handled c (s.handled c ++ [w]) := by
  obtain ⟨r, hr⟩ := Option.isSome_iff_exists.mp (handleLock_isSome alloc s.table hw)
  have htake : (s.stream c).take 4 = wordBytes w := by
    rw [hs, List.flatMap_cons]
    exact List.take_left' rfl
  have hdrop : (s.stream c).drop 4 = ws.flatMap wordBytes := by
    rw [hs, List.flatMap_cons]
    exact List.drop_left' rfl
  refine ⟨⟨s.x.fill (wordBytes w), r.1, Function.update s.stream c (ws.flatMap wordBytes),
    Function.update s.handled c (s.handled c ++ [w])⟩, ?_, rfl, rfl⟩
  unfold recvLock
  simp only [htake, hdrop, word_fill_wordBytes]
  rw [if_neg (by simp [wordBytes]), hr]
  rfl

/-- **Whole deliveries.** If every delivery has four bytes, the words handled are the words sent. -/
theorem foldlM_whole {alloc : Bool} {s : Server ι} {es : List (ι × Nat)} {rest : ι → List Word}
    (hes : ∀ e ∈ es, e.2 = 4) (hrest : ∀ c, ∀ w ∈ rest c, indicator w ≠ 3)
    (hs : ∀ c, s.stream c = (rest c).flatMap wordBytes) (hlen : ∀ c, delivered c es = 4 * (rest c).length) :
    ∃ t, es.foldlM (recvLock alloc) s = some t ∧ ∀ c, t.handled c = s.handled c ++ rest c := by
  induction es generalizing s rest with
  | nil =>
    refine ⟨s, rfl, fun c => ?_⟩
    have hnil : (rest c).length = 0 := by
      have := hlen c
      simp only [delivered, List.filter_nil, List.map_nil, List.sum_nil] at this
      omega
    rw [List.eq_nil_of_length_eq_zero hnil, List.append_nil]
  | cons e es ih =>
    obtain ⟨c, k⟩ := e
    obtain rfl : k = 4 := hes (c, k) List.mem_cons_self
    have hc := hlen c
    rw [delivered_cons, if_pos rfl] at hc
    cases hr : rest c with
    | nil =>
      rw [hr, List.length_nil] at hc
      omega
    | cons w ws =>
      have hw : indicator w ≠ 3 := hrest c w (by rw [hr]; exact List.mem_cons_self)
      obtain ⟨u, hu, hstream, hhandled⟩ := recvLock_whole (by rw [hs c, hr]) hw
      have hrest' : ∀ d, ∀ w' ∈ Function.update rest c ws d, indicator w' ≠ 3 := by
        intro d w' hw'
        by_cases hd : d = c
        · subst hd
          rw [Function.update_self] at hw'
          exact hrest d w' (by rw [hr]; exact List.mem_cons_of_mem w hw')
        · rw [Function.update_of_ne hd] at hw'
          exact hrest d w' hw'
      have hs' : ∀ d, u.stream d = (Function.update rest c ws d).flatMap wordBytes := by
        intro d
        rw [hstream]
        by_cases hd : d = c
        · subst hd
          simp
        · simp [hd, hs d]
      have hlen' : ∀ d, delivered d es = 4 * (Function.update rest c ws d).length := by
        intro d
        have hd' := hlen d
        rw [delivered_cons] at hd'
        by_cases hd : d = c
        · subst hd
          rw [if_pos rfl, hr, List.length_cons] at hd'
          rw [Function.update_self]
          omega
        · rw [if_neg (Ne.symm hd)] at hd'
          rw [Function.update_of_ne hd]
          omega
      obtain ⟨t, ht, hdone⟩ := ih (fun e he => hes e (List.mem_cons_of_mem _ he)) hrest' hs' hlen'
      refine ⟨t, by rw [List.foldlM_cons, hu]; exact ht, fun d => ?_⟩
      rw [hdone d, hhandled]
      by_cases hd : d = c
      · subst hd
        simp [hr]
      · simp [hd]

/-- Deliveries of at most four bytes. -/
theorem delivered_le {es : List (ι × Nat)} (hsize : ∀ e ∈ es, e.2 ≤ 4) (c : ι) :
    delivered c es ≤ 4 * (es.filter fun e => e.1 = c).length := by
  induction es with
  | nil => simp [delivered]
  | cons e es ih =>
    have hes := ih fun e' he' => hsize e' (List.mem_cons_of_mem e he')
    have he := hsize e List.mem_cons_self
    rw [delivered_cons]
    by_cases hc : e.1 = c
    · rw [if_pos hc, List.filter_cons_of_pos (by simpa using hc), List.length_cons]
      omega
    · rw [if_neg hc, List.filter_cons_of_neg (by simpa using hc)]
      omega

/-- A connection with as many deliveries as words has four bytes in each. -/
theorem whole_of_length {es : List (ι × Nat)} {c : ι} (hsize : ∀ e ∈ es, e.2 ≤ 4)
    (h : delivered c es = 4 * (es.filter fun e => e.1 = c).length) : ∀ e ∈ es, e.1 = c → e.2 = 4 := by
  induction es with
  | nil => simp
  | cons e es ih =>
    have hsize' : ∀ e' ∈ es, e'.2 ≤ 4 := fun e' he' => hsize e' (List.mem_cons_of_mem e he')
    have hle := delivered_le hsize' c
    have he := hsize e List.mem_cons_self
    rw [delivered_cons] at h
    intro e' he' hc'
    by_cases hc : e.1 = c
    · rw [if_pos hc, List.filter_cons_of_pos (by simpa using hc), List.length_cons] at h
      rcases List.mem_cons.mp he' with rfl | he'
      · omega
      · exact ih hsize' (by omega) e' he' hc'
    · rw [if_neg hc, List.filter_cons_of_neg (by simpa using hc), Nat.zero_add] at h
      rcases List.mem_cons.mp he' with rfl | he'
      · exact absurd hc' hc
      · exact ih hsize' h e' he' hc'

/-- If all words are handled as sent, every delivery has four bytes. -/
theorem whole_of_handled {alloc : Bool} {x : Buffer} {table : HashTable} {sent : ι → List Word}
    {rounds : List (List (ι × Nat))} (hcut : IsCut sent rounds) {s : Server ι}
    (h : selectLoop alloc (.start x table sent) rounds = some s) (hs : ∀ c, s.handled c = sent c) :
    ∀ e ∈ rounds.flatten, e.2 = 4 := by
  have hstart : ∀ c, ((Server.start x table sent).stream c).length = delivered c rounds.flatten := by
    intro c
    rw [hcut.whole c, Server.start, List.length_flatMap]
    simp [wordBytes, Nat.mul_comm]
  rw [selectLoop_flatten] at h
  intro e he
  refine whole_of_length (fun e he => (hcut.size e he).2) ?_ e he rfl
  have hcount := foldlM_handled (fun e he => (hcut.size e he).1) hstart h e.1
  rw [hs, Server.start, List.length_nil, Nat.zero_add] at hcount
  rw [hcut.whole, hcount]

/-- **Framing.** Let the streams of the clients be cut into deliveries of 1 to 4 bytes in any way and any order. The
server runs through and hands each client's words to `handle_lock` as they were sent, exactly if every `recv` returns
four bytes. -/
theorem framing_iff (alloc : Bool) (x : Buffer) (table : HashTable) (sent : ι → List Word)
    (hsent : ∀ c, ∀ w ∈ sent c, indicator w ≠ 3) (rounds : List (List (ι × Nat))) (hcut : IsCut sent rounds) :
    (∃ s, selectLoop alloc (.start x table sent) rounds = some s ∧ ∀ c, s.handled c = sent c) ↔
      ∀ e ∈ rounds.flatten, e.2 = 4 := by
  constructor
  · intro ⟨s, h, hs⟩
    exact whole_of_handled hcut h hs
  · intro hwhole
    obtain ⟨s, h, hs⟩ := @foldlM_whole ι _ alloc (.start x table sent) _ sent hwhole hsent (fun c => rfl) hcut.whole
    exact ⟨s, by rw [selectLoop_flatten]; exact h, hs⟩

end

/-- Two clients ask for block 1, both in one round, and the first one releases it. -/
def twoClients : Bool → List Word
  | false => [lockWord .write 1, lockWord .release 1]
  | true => [lockWord .read 1]

theorem framing_iff_two : ∃ s, selectLoop true (.start (fun _ => 0) createHashTable twoClients)
    [[(false, 4), (true, 4)], [(false, 4)]] = some s ∧ ∀ c, s.handled c = twoClients c := by
  have hsent : ∀ c, ∀ w ∈ twoClients c, indicator w ≠ 3 := by
    intro c w hw
    cases c with
    | false =>
      rcases List.mem_pair.mp hw with rfl | rfl
      · rw [indicator_lockWord .write (by decide)]
        decide
      · rw [indicator_lockWord .release (by decide)]
        decide
    | true =>
      rw [List.mem_singleton.mp hw, indicator_lockWord .read (by decide)]
      decide
  have hcut : IsCut twoClients [[(false, 4), (true, 4)], [(false, 4)]] := ⟨by simp, fun c => by cases c <;> rfl⟩
  exact (framing_iff true (fun _ => 0) createHashTable twoClients hsent _ hcut).mpr (by simp)

/-- The word of one client comes in two halves: two words are handled. -/
theorem framing_split : ¬ ∀ (sent : Unit → List Word) (rounds : List (List (Unit × Nat))),
    (∀ c, ∀ w ∈ sent c, indicator w ≠ 3) → IsCut sent rounds →
      ∃ s, selectLoop true (.start (fun _ => 0) createHashTable sent) rounds = some s ∧ ∀ c, s.handled c = sent c := by
  intro h
  have hcut : IsCut (fun _ : Unit => [lockWord .write 1]) [[((), 2)], [((), 2)]] := ⟨by simp, fun _ => rfl⟩
  obtain ⟨s, hs, hhandled⟩ := h _ _ (by simp; decide) hcut
  have := whole_of_handled hcut hs hhandled ((), 2) (by simp)
  omega

end PmemProgram.Cxl
