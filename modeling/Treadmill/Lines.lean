import Mathlib.Data.List.Basic
import Mathlib.Data.Nat.Find
import Treadmill.Util

/-! # Lines

`readLine` reads a byte at a time until the last two bytes of the buffer are a line end or the
buffer is full.  It counts every call of `read` as a byte, whatever the call returned, and in
its first round it looks at the byte before the buffer.

What the buffer holds when the loop stops is known from the stream and the memory at the
start (`seen`), and so is where it stops (`stopsAt`, `readLine_spec`).  The line is returned
when there are bytes enough and the byte before the buffer does not matter
(`readLine_returnsLine_iff`); the loop stays inside a buffer of one byte only
(`readLine_inside_iff`). -/

namespace Treadmill

/-! ### Lines of a stream -/

/-- The first `n` bytes of the stream end in CR LF. -/
def EndsLine (stream : List UInt8) (n : ℕ) : Prop :=
  2 ≤ n ∧ stream[n - 2]? = some cr ∧ stream[n - 1]? = some lf

/-- The length of the line at the front of the stream: that of the shortest prefix that ends in
CR LF if there is one of at most `size` bytes, and otherwise the smaller of `size` and the
length of the stream. -/
def IsLineLength (size : ℕ) (stream : List UInt8) (n : ℕ) : Prop :=
  (n ≤ size ∧ EndsLine stream n ∧ ∀ k < n, ¬ EndsLine stream k) ∨
    ((∀ k ≤ size, ¬ EndsLine stream k) ∧ n = min size stream.length)

theorem EndsLine.le_length {stream : List UInt8} {n : ℕ} (hn : EndsLine stream n) :
    n ≤ stream.length := by
  obtain ⟨h2, -, hlf⟩ := hn
  have := (List.getElem?_eq_some_iff.mp hlf).1
  omega

/-! ### Where the loop stops -/

/-- What address `i` holds once the loop has passed it: the byte of the stream, if there is
one. -/
def seen (stream : List UInt8) (memory : ℤ → UInt8) (i : ℤ) : UInt8 :=
  if 0 ≤ i then stream[i.toNat]?.getD (memory i) else memory i

/-- The loop stops after `n` rounds, unless it stopped before. -/
def StopsAt (size : ℕ) (stream : List UInt8) (memory : ℤ → UInt8) (n : ℕ) : Prop :=
  size ≤ n ∨ (seen stream memory (n - 2) = cr ∧ seen stream memory (n - 1) = lf)

section stops
variable {size n k : ℕ} {stream : List UInt8} {memory : ℤ → UInt8}

theorem seen_of_getElem? {i : ℕ} {b : UInt8} (hb : stream[i]? = some b) :
    seen stream memory i = b := by
  simp [seen, hb]

theorem getElem?_of_lt (memory : ℤ → UInt8) {i : ℕ} (hi : i < stream.length) :
    stream[i]? = some (seen stream memory i) := by
  simp [seen, hi]

theorem EndsLine.stopsAt (hn : EndsLine stream n) : StopsAt size stream memory n := by
  obtain ⟨h2, hcr, hlf⟩ := hn
  have e2 : (n : ℤ) - 2 = (n - 2 : ℕ) := by omega
  have e1 : (n : ℤ) - 1 = (n - 1 : ℕ) := by omega
  refine Or.inr ⟨?_, ?_⟩
  · rw [e2, seen_of_getElem? hcr]
  · rw [e1, seen_of_getElem? hlf]

/-- In the stream, what stops the loop before the buffer is full is a line end, or a byte
before the buffer taken for the first half of one. -/
theorem StopsAt.cases (hs : StopsAt size stream memory n) (h1 : 1 ≤ n) (hlt : n < size)
    (hle : n ≤ stream.length) :
    EndsLine stream n ∨ (n = 1 ∧ memory (-1) = cr ∧ stream.head? = some lf) := by
  rcases hs with hs | ⟨hcr, hlf⟩
  · omega
  · have e1 : (n : ℤ) - 1 = (n - 1 : ℕ) := by omega
    have hget := getElem?_of_lt memory (show n - 1 < stream.length by omega)
    rw [← e1, hlf] at hget
    by_cases hone : n = 1
    · subst hone
      refine Or.inr ⟨rfl, ?_, ?_⟩
      · simpa [seen] using hcr
      · rw [List.head?_eq_getElem?]
        exact hget
    · have e2 : (n : ℤ) - 2 = (n - 2 : ℕ) := by omega
      have hget' := getElem?_of_lt memory (show n - 2 < stream.length by omega)
      rw [← e2, hcr] at hget'
      exact Or.inl ⟨by omega, hget', hget⟩

end stops

/-! ### The loop -/

section loop
variable {ω : Type} {os : Os ω} {contents : ω → List UInt8} {w : ω} {size : ℕ}
  {stream : List UInt8} {memory : ℤ → UInt8} {s : LineReading ω}

theorem body_eq_inl {t : LineReading ω} : (readLine os size).body s = .inl t ↔
    (s.round os).Continues size ∧ t = (s.round os).look size := by
  simp only [readLine]
  split_ifs with hc <;> simp [hc, eq_comm]

theorem body_eq_inr {t : LineReading ω} : (readLine os size).body s = .inr t ↔
    ¬ (s.round os).Continues size ∧ t = (s.round os).look size := by
  simp only [readLine]
  split_ifs with hc <;> simp [hc, eq_comm]

/-- After as many rounds as bytes were counted, the memory up to there is what the stream left,
and the stream has moved on by as many bytes. -/
structure Passed (contents : ω → List UInt8) (stream : List UInt8) (memory : ℤ → UInt8)
    (s : LineReading ω) : Prop where
  held : ∀ i, s.memory i = if i < s.totalBytesRead then seen stream memory i else memory i
  rest : contents s.os = stream.drop s.totalBytesRead

theorem passed_start (memory : ℤ → UInt8) (w : ω) :
    Passed contents (contents w) memory ⟨memory, 0, w, []⟩ where
  held := by
    intro i
    simp only [seen]
    split_ifs with hi hpos
    · simp only [Int.natCast_zero] at hi
      omega
    · rfl
    · rfl
  rest := rfl

theorem Passed.round_byte {b : UInt8} (hs : Passed contents stream memory s)
    (hd : Delivers os contents) (hstream : stream[s.totalBytesRead]? = some b) :
    Passed contents stream memory (s.round os) := by
  obtain ⟨hlt, hget⟩ := List.getElem?_eq_some_iff.mp hstream
  have hcons := List.drop_eq_getElem_cons hlt
  have hmore : contents s.os ≠ [] := by
    rw [hs.rest, hcons]
    exact List.cons_ne_nil _ _
  obtain ⟨bytes, w', hr, hne, hc⟩ := hd s.os 1 (by omega) hmore
  have hlen := os.read_le s.os 1 bytes (by rw [hr])
  have hone : bytes.length = 1 := by
    have := List.length_pos_iff.mpr hne
    omega
  obtain ⟨b', rfl⟩ := List.length_eq_one_iff.mp hone
  rw [hs.rest, hcons, hget, List.singleton_append, List.cons.injEq] at hc
  obtain ⟨rfl, hw'⟩ := hc
  constructor
  · intro i
    simp only [LineReading.round, hr, poke]
    by_cases hi : i = s.totalBytesRead
    · subst hi
      rw [Function.update_self, if_pos (by omega), seen_of_getElem? hstream]
    · rw [Function.update_of_ne hi, hs.held]
      split_ifs <;> first | rfl | omega
  · simp only [LineReading.round, hr]
    exact hw'.symm

theorem Passed.round_end (hs : Passed contents stream memory s)
    (he : EndsWith os contents .endOfFile) (hle : stream.length ≤ s.totalBytesRead) :
    Passed contents stream memory (s.round os) := by
  have hnone : contents s.os = [] := by
    rw [hs.rest, List.drop_eq_nil_iff]
    exact hle
  obtain ⟨w', hr, hw'⟩ := he s.os 1 (by omega) hnone
  constructor
  · intro i
    simp only [LineReading.round, hr, Ending.result, poke, hs.held]
    by_cases hi : i = s.totalBytesRead
    · subst hi
      rw [if_neg (by omega), if_pos (by omega)]
      simp [seen, List.getElem?_eq_none hle]
    · split_ifs <;> first | rfl | omega
  · simp only [LineReading.round, hr]
    rw [hw', eq_comm, List.drop_eq_nil_iff]
    omega

theorem Passed.round (hs : Passed contents stream memory s) (hd : Delivers os contents)
    (he : EndsWith os contents .endOfFile) : Passed contents stream memory (s.round os) := by
  cases hstream : stream[s.totalBytesRead]? with
  | some b => exact hs.round_byte hd hstream
  | none => exact hs.round_end he (List.getElem?_eq_none_iff.mp hstream)

/-- The condition of the loop, in terms of the stream. -/
theorem Passed.continues_iff (hs : Passed contents stream memory s) :
    s.Continues size ↔ ¬ StopsAt size stream memory s.totalBytesRead := by
  simp only [LineReading.Continues, StopsAt, hs.held]
  rw [if_pos (by omega), if_pos (by omega), not_or, not_and_or, Nat.not_le]

/-- The state in which the loop stops, after its first round that does not continue. -/
structure Stopped (contents : ω → List UInt8) (size : ℕ) (stream : List UInt8)
    (memory : ℤ → UInt8) (t : LineReading ω) : Prop extends Passed contents stream memory t where
  pos : 1 ≤ t.totalBytesRead
  stops : StopsAt size stream memory t.totalBytesRead
  first : ∀ k, 1 ≤ k → k < t.totalBytesRead → ¬ StopsAt size stream memory k

/-- **What `readLine` does**, for any stream and any memory. -/
theorem readLine_spec (hd : Delivers os contents) (he : EndsWith os contents .endOfFile)
    (hsize : 1 ≤ size) (memory : ℤ → UInt8) (w : ω) :
    ∃ t, ReadsLine os size memory w t ∧ Stopped contents size (contents w) memory t := by
  refine While.ends_of_variant (w := readLine os size)
    (I := fun s => s.totalBytesRead < size ∧ Passed contents (contents w) memory s ∧
      ∀ k, 1 ≤ k → k ≤ s.totalBytesRead → ¬ StopsAt size (contents w) memory k)
    (fun s => size - s.totalBytesRead) ?_ (s := ⟨memory, 0, w, []⟩)
    ⟨hsize, passed_start memory w, ?_⟩
  · rintro s ⟨hlt, hs, hbefore⟩
    have ht := hs.round hd he
    have htotal : (s.round os).totalBytesRead = s.totalBytesRead + 1 := rfl
    by_cases hc : (s.round os).Continues size
    · refine Or.inl ⟨_, body_eq_inl.mpr ⟨hc, rfl⟩, ⟨hc.1, ⟨ht.held, ht.rest⟩, ?_⟩, ?_⟩
      · intro k hk hle
        by_cases hlast : k = s.totalBytesRead + 1
        · subst hlast
          exact ht.continues_iff.mp hc
        · apply hbefore k hk
          simp only [LineReading.look, htotal] at hle
          omega
      · simp only [LineReading.look, htotal]
        omega
    · refine Or.inr ⟨_, body_eq_inr.mpr ⟨hc, rfl⟩, ⟨ht.held, ht.rest⟩, ?_, ?_, ?_⟩
      · simp only [LineReading.look, htotal]
        omega
      · by_contra hstops
        exact hc (ht.continues_iff.mpr hstops)
      · intro k hk hlt'
        simp only [LineReading.look, htotal] at hlt'
        exact hbefore k hk (by omega)
  · intro k hk hle
    simp only at hle
    omega

/-! ### When the line is returned -/

theorem IsLineLength.le_length {n : ℕ} (hn : IsLineLength size stream n) : n ≤ stream.length := by
  rcases hn with ⟨-, hline, -⟩ | ⟨-, rfl⟩
  · exact hline.le_length
  · exact Nat.min_le_right _ _

/-- The first two bytes that the loop looks at are a line end that begins before the
buffer. -/
def FalseStart (size : ℕ) (stream : List UInt8) (memory : ℤ → UInt8) : Prop :=
  2 ≤ size ∧ memory (-1) = cr ∧ stream.head? = some lf

namespace Stopped

variable {t : LineReading ω} {n : ℕ}

theorem eq_of_stopsAt (ht : Stopped contents size stream memory t) (h1 : 1 ≤ n)
    (hn : StopsAt size stream memory n)
    (hfirst : ∀ k, 1 ≤ k → k < n → ¬ StopsAt size stream memory k) : t.totalBytesRead = n := by
  apply Nat.le_antisymm
  · by_contra hlt
    exact ht.first n h1 (by omega) hn
  · by_contra hlt
    exact hfirst t.totalBytesRead ht.pos (by omega) ht.stops

theorem eq_one (ht : Stopped contents size stream memory t)
    (hf : FalseStart size stream memory) : t.totalBytesRead = 1 := by
  obtain ⟨-, hcr, hlf⟩ := hf
  apply ht.eq_of_stopsAt (Nat.le_refl 1)
  · rw [List.head?_eq_getElem?] at hlf
    refine Or.inr ⟨hcr, ?_⟩
    exact seen_of_getElem? hlf
  · intro k h1 hlt
    omega

/-- Without one, what stops the loop among the bytes of the stream is a line end. -/
theorem endsLine_of_stopsAt (hf : ¬ FalseStart size stream memory)
    (hn : StopsAt size stream memory n) (h1 : 1 ≤ n) (hlt : n < size)
    (hle : n ≤ stream.length) : EndsLine stream n := by
  rcases hn.cases h1 hlt hle with hline | ⟨rfl, hcr, hlf⟩
  · exact hline
  · exact absurd ⟨hlt, hcr, hlf⟩ hf

theorem eq_of_endsLine (ht : Stopped contents size stream memory t)
    (hf : ¬ FalseStart size stream memory) (hle : n ≤ size) (hn : EndsLine stream n)
    (hfirst : ∀ k < n, ¬ EndsLine stream k) : t.totalBytesRead = n := by
  have h2 := hn.1
  have hlen := hn.le_length
  apply ht.eq_of_stopsAt (by omega) hn.stopsAt
  intro k h1 hlt hk
  exact hfirst k hlt (endsLine_of_stopsAt hf hk h1 (by omega) (by omega))

theorem eq_size (ht : Stopped contents size stream memory t)
    (hf : ¬ FalseStart size stream memory) (hsize : 1 ≤ size) (hle : size ≤ stream.length)
    (hnone : ∀ k ≤ size, ¬ EndsLine stream k) : t.totalBytesRead = size := by
  apply ht.eq_of_stopsAt hsize (Or.inl (Nat.le_refl size))
  intro k h1 hlt hk
  exact hnone k (by omega) (endsLine_of_stopsAt hf hk h1 hlt (by omega))

/-- **The result is the length of the line** exactly when there is no false start and there are
bytes enough, or the stream is the one byte of a false start. -/
theorem isLineLength_iff (ht : Stopped contents size stream memory t) (hsize : 1 ≤ size) :
    IsLineLength size stream t.totalBytesRead ↔
      (FalseStart size stream memory ∧ stream.length = 1) ∨
      (¬ FalseStart size stream memory ∧
        (size ≤ stream.length ∨ ∃ n ≤ size, EndsLine stream n)) := by
  by_cases hf : FalseStart size stream memory
  · have hone := ht.eq_one hf
    have h2 := hf.1
    have hshort : ∀ k, EndsLine stream k → 2 ≤ k := fun k hk => hk.1
    rw [hone]
    constructor
    · rintro (⟨-, hline, -⟩ | ⟨-, hmin⟩)
      · have := hshort 1 hline
        omega
      · exact Or.inl ⟨hf, by omega⟩
    · rintro (⟨-, hlen⟩ | ⟨hnot, -⟩)
      · refine Or.inr ⟨fun k _ hk => ?_, by omega⟩
        have := hshort k hk
        have := hk.le_length
        omega
      · exact absurd hf hnot
  · constructor
    · intro hn
      refine Or.inr ⟨hf, ?_⟩
      rcases hn with ⟨hle, hline, -⟩ | ⟨hnone, hmin⟩
      · exact Or.inr ⟨_, hle, hline⟩
      · -- a stream that is too short does not stop the loop at its end
        by_contra hnot
        push Not at hnot
        have hpos := ht.pos
        exact hnone t.totalBytesRead (by omega)
          (endsLine_of_stopsAt hf ht.stops hpos (by omega) (by omega))
    · rintro (⟨hf', -⟩ | ⟨-, henough⟩)
      · exact absurd hf' hf
      · by_cases hline : ∃ n ≤ size, EndsLine stream n
        · classical
          have hn := Nat.find_spec hline
          have hmin : ∀ k < Nat.find hline, ¬ EndsLine stream k := fun k hk he =>
            Nat.find_min hline hk ⟨by omega, he⟩
          rw [ht.eq_of_endsLine hf hn.1 hn.2 hmin]
          exact Or.inl ⟨hn.1, hn.2, hmin⟩
        · have hle : size ≤ stream.length := by
            rcases henough with hle | hline'
            · exact hle
            · exact absurd hline' hline
          have hnone : ∀ k ≤ size, ¬ EndsLine stream k := fun k hk he => hline ⟨k, hk, he⟩
          rw [ht.eq_size hf hsize hle hnone]
          exact Or.inr ⟨hnone, (Nat.min_eq_left hle).symm⟩

end Stopped

/-- `readLine` ends and returns the number of bytes that it took off the stream, which is the
length of the line, and the buffer starts with these bytes. -/
def ReturnsLine (os : Os ω) (contents : ω → List UInt8) (size : ℕ) (memory : ℤ → UInt8)
    (w : ω) : Prop :=
  ∃ t, ReadsLine os size memory w t ∧
    (contents w).length = t.totalBytesRead + (contents t.os).length ∧
    IsLineLength size (contents w) t.totalBytesRead ∧
    ∀ i < t.totalBytesRead, (contents w)[i]? = some (t.memory i)

/-- **When `readLine` returns the line.**  For every stream and every memory: when the byte
before the buffer and the first byte of the stream do not make a line end, exactly when the
stream has bytes enough to fill the buffer or a line end in it; when they do, only if that
byte is all there is. -/
theorem readLine_returnsLine_iff (hd : Delivers os contents)
    (he : EndsWith os contents .endOfFile) (hsize : 1 ≤ size) (memory : ℤ → UInt8) (w : ω) :
    ReturnsLine os contents size memory w ↔
      if 2 ≤ size ∧ memory (-1) = cr ∧ (contents w).head? = some lf then
        (contents w).length = 1
      else size ≤ (contents w).length ∨ ∃ n ≤ size, EndsLine (contents w) n := by
  obtain ⟨t, ht, hstopped⟩ := readLine_spec hd he hsize memory w
  have hiff := hstopped.isLineLength_iff hsize
  have hreturns : ReturnsLine os contents size memory w ↔
      IsLineLength size (contents w) t.totalBytesRead := by
    constructor
    · rintro ⟨u, hu, -, hline, -⟩
      obtain rfl := ht.unique hu
      exact hline
    · intro hline
      have hle := hline.le_length
      refine ⟨t, ht, ?_, hline, ?_⟩
      · rw [hstopped.rest, List.length_drop]
        omega
      · intro i hi
        rw [hstopped.held, if_pos (by omega)]
        exact getElem?_of_lt memory (by omega)
  rw [hreturns, hiff]
  unfold FalseStart
  split_ifs with hf
  · simp [hf]
  · simp only [hf, false_and, not_false_eq_true, true_and, false_or]

/-- The line is returned although the bytes after it are not read. -/
theorem readLine_returnsLine_iff_trickle :
    ReturnsLine (trickle 0 .endOfFile) id 8 (fun _ => 0) [97, 13, 10, 98] := by
  have hline : EndsLine [97, 13, 10, 98] 3 := ⟨by decide, rfl, rfl⟩
  rw [readLine_returnsLine_iff (trickle_delivers 0 .endOfFile) (trickle_endsWith 0 .endOfFile)
    (by decide)]
  exact Or.inr ⟨3, by decide, hline⟩

/-- A stream of one byte fills a buffer of four: the reads at the end of file are counted. -/
theorem readLine_counts_endOfFile :
    (∃ t, ReadsLine (trickle 0 .endOfFile) 4 (fun _ => 0) [97] t ∧ t.totalBytesRead = 4) ∧
      ¬ ReturnsLine (trickle 0 .endOfFile) id 4 (fun _ => 0) [97] := by
  have hrun : ((readLine (trickle 0 .endOfFile) 4).run 4 ⟨fun _ => 0, 0, [97], []⟩).map
      (·.totalBytesRead) = some 4 := by decide
  obtain ⟨t, ht, htotal⟩ := Option.map_eq_some_iff.mp hrun
  refine ⟨⟨t, ⟨4, ht⟩, htotal⟩, ?_⟩
  rintro ⟨u, hu, hcount, -⟩
  obtain rfl := While.Ends.unique ⟨4, ht⟩ hu
  rw [htotal] at hcount
  simp at hcount
  omega

/-! ### Where the loop reads and writes -/

@[simp] theorem totalBytesRead_round (os : Os ω) (s : LineReading ω) :
    (s.round os).totalBytesRead = s.totalBytesRead + 1 := rfl

@[simp] theorem accesses_round (os : Os ω) (s : LineReading ω) :
    (s.round os).accesses = s.accesses ++ [(s.totalBytesRead : ℤ)] := rfl

theorem back_mem_look (hlt : s.totalBytesRead < size) :
    (s.totalBytesRead : ℤ) - 2 ∈ (s.look size).accesses := by
  refine List.mem_append_right _ ?_
  split_ifs <;> exact List.mem_cons_self

theorem accesses_mono (os : Os ω) (size : ℕ) (s : LineReading ω) {i : ℤ} (hi : i ∈ s.accesses) :
    i ∈ ((s.round os).look size).accesses := by
  refine List.mem_append_left _ ?_
  rw [accesses_round]
  exact List.mem_append_left _ hi

/-- With room for two bytes, the first round looks at the byte before the buffer. -/
theorem before_mem_accesses (h2 : 2 ≤ size) {t : LineReading ω}
    (ht : ReadsLine os size memory w t) : -1 ∈ t.accesses := by
  have hfirst : -1 ∈ (((⟨memory, 0, w, []⟩ : LineReading ω).round os).look size).accesses :=
    back_mem_look (s := (⟨memory, 0, w, []⟩ : LineReading ω).round os) h2
  have hlater : ∀ s : LineReading ω, -1 ∈ s.accesses → (readLine os size).Ends s t →
      -1 ∈ t.accesses := by
    intro s hs he
    refine While.Ends.invariant (I := fun s => -1 ∈ s.accesses)
      (Q := fun t => -1 ∈ t.accesses) ?_ ?_ hs he
    · intro s s' hs hb
      obtain ⟨-, rfl⟩ := body_eq_inl.mp hb
      exact accesses_mono os size s hs
    · intro s t hs hb
      obtain ⟨-, rfl⟩ := body_eq_inr.mp hb
      exact accesses_mono os size s hs
  by_cases hc : ((⟨memory, 0, w, []⟩ : LineReading ω).round os).Continues size
  · exact hlater _ hfirst ((While.ends_round (body_eq_inl.mpr ⟨hc, rfl⟩)).mp ht)
  · obtain rfl := (While.ends_exit (body_eq_inr.mpr ⟨hc, rfl⟩)).mp ht
    exact hfirst

theorem poke_congr (bytes : List UInt8) :
    ∀ (memory memory' : ℤ → UInt8) (i j : ℤ), memory' j = memory j →
      poke memory' i bytes j = poke memory i bytes j := by
  induction bytes with
  | nil => exact fun _ _ _ _ h => h
  | cons b bytes ih =>
      intro memory memory' i j h
      apply ih
      by_cases hj : j = i
      · subst hj
        simp
      · rw [Function.update_of_ne hj, Function.update_of_ne hj, h]

theorem round_congr (os : Os ω) {memory' : ℤ → UInt8} {w : ω} {i : ℤ}
    (h : memory' i = memory i) :
    ((⟨memory', 0, w, []⟩ : LineReading ω).round os).memory i =
      ((⟨memory, 0, w, []⟩ : LineReading ω).round os).memory i := by
  unfold LineReading.round
  cases os.read w 1 with
  | mk result u =>
      cases result with
      | error text => exact h
      | ok bytes => exact poke_congr bytes _ _ _ _ h

/-- `readLine` uses addresses in its buffer only, and what it does depends on no others. -/
def StaysInside (os : Os ω) (size : ℕ) (memory : ℤ → UInt8) (w : ω) : Prop :=
  ∃ t, ReadsLine os size memory w t ∧ (∀ i ∈ t.accesses, 0 ≤ i ∧ i < size) ∧
    ∀ memory' : ℤ → UInt8, (∀ i : ℕ, i < size → memory' i = memory i) →
      ∃ t', ReadsLine os size memory' w t' ∧ t'.totalBytesRead = t.totalBytesRead ∧
        t'.os = t.os ∧ ∀ i : ℕ, i < size → t'.memory i = t.memory i

theorem readsLine_one (os : Os ω) (memory : ℤ → UInt8) (w : ω) :
    ReadsLine os 1 memory w (((⟨memory, 0, w, []⟩ : LineReading ω).round os).look 1) := by
  have hc : ¬ ((⟨memory, 0, w, []⟩ : LineReading ω).round os).Continues 1 := by
    simp [LineReading.Continues]
  exact While.ends_of_exit (body_eq_inr.mpr ⟨hc, rfl⟩)

/-- **When `readLine` stays inside its buffer**: with a buffer of one byte, whatever the system
calls do. -/
theorem readLine_inside_iff (os : Os ω) (hsize : 1 ≤ size) (memory : ℤ → UInt8) (w : ω) :
    StaysInside os size memory w ↔ size = 1 := by
  constructor
  · rintro ⟨t, ht, hinside, -⟩
    by_contra hne
    have := (hinside (-1) (before_mem_accesses (by omega) ht)).1
    omega
  · rintro rfl
    refine ⟨_, readsLine_one os memory w, ?_, ?_⟩
    · simp [LineReading.look]
    · intro memory' heq
      exact ⟨_, readsLine_one os memory' w, rfl, rfl, fun i hi => round_congr os (heq i hi)⟩

/-- A buffer of one byte and one of two. -/
theorem readLine_inside_iff_trickle :
    StaysInside (trickle 0 .endOfFile) 1 (fun _ => 0) [10, 97] ∧
      ¬ StaysInside (trickle 0 .endOfFile) 2 (fun _ => 0) [10, 97] := by
  constructor
  · exact (readLine_inside_iff _ (by decide) _ _).mpr rfl
  · rw [readLine_inside_iff _ (by decide)]
    decide

/-- The same call with the same buffer of two bytes returns one byte or two, as the byte before
the buffer is. -/
theorem readLine_reads_before_buffer :
    (∃ t, ReadsLine (trickle 0 .endOfFile) 2 (fun _ => 0) [10, 97] t ∧
        t.totalBytesRead = 2 ∧ t.accesses = [0, -1, 1]) ∧
      (∃ t, ReadsLine (trickle 0 .endOfFile) 2 (Function.update (fun _ => 0) (-1) cr) [10, 97] t ∧
        t.totalBytesRead = 1) ∧
      ¬ StaysInside (trickle 0 .endOfFile) 2 (fun _ => 0) [10, 97] := by
  have hrun : ((readLine (trickle 0 .endOfFile) 2).run 2 ⟨fun _ => 0, 0, [10, 97], []⟩).map
      (fun t => (t.totalBytesRead, t.accesses)) = some (2, [0, -1, 1]) := by decide
  have hrun' : ((readLine (trickle 0 .endOfFile) 2).run 1
      ⟨Function.update (fun _ => 0) (-1) cr, 0, [10, 97], []⟩).map (·.totalBytesRead) =
        some 1 := by decide
  obtain ⟨t, ht, htotal⟩ := Option.map_eq_some_iff.mp hrun
  obtain ⟨t', ht', htotal'⟩ := Option.map_eq_some_iff.mp hrun'
  rw [Prod.mk.injEq] at htotal
  refine ⟨⟨t, ⟨2, ht⟩, htotal⟩, ⟨t', ⟨1, ht'⟩, htotal'⟩, ?_⟩
  rintro ⟨u, hu, hinside, -⟩
  obtain rfl := While.Ends.unique ⟨2, ht⟩ hu
  have := (hinside (-1) (by simp [htotal.2])).1
  omega

end loop
end Treadmill
