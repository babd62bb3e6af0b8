import Mathlib.Data.List.Basic
import Treadmill.Util

/-! # Blocks

`writeBlock` puts the bytes of its buffer on the stream in as many calls as it takes, and
`readBlock` takes as many bytes off it as its buffer holds.  How the calls cut the bytes is
settled in one round of each loop (`writeBlock_round`, `Filled.round`); from the rounds follow
what a call does (`writeBlock_appends`, `readBlock_takes`) and what a sequence of calls does,
so the blocks written come back whole (`readBlock_undoes_writeBlock`).

`readBlock` counts on the bytes being there: at the end of file a read that returns nothing
leaves the total where it is, and the loop goes on for ever (`readBlock_settles_iff`). -/

namespace Treadmill

variable {ω : Type} {os : Os ω} {contents : ω → List UInt8} {w : ω}

/-! ### Writing -/

theorem writeBlock_round (ha : Accepts os contents) {buffer : List UInt8} {s : Writing ω}
    (hs : s.totalBytesWritten < buffer.length) :
    ∃ s', (writeBlock os buffer).body s = .inl s' ∧
      s.totalBytesWritten < s'.totalBytesWritten ∧ s'.totalBytesWritten ≤ buffer.length ∧
      contents s'.os = contents s.os ++
        (buffer.drop s.totalBytesWritten).take (s'.totalBytesWritten - s.totalBytesWritten) := by
  have hne : buffer.drop s.totalBytesWritten ≠ [] := by
    rw [Ne, List.drop_eq_nil_iff]
    omega
  obtain ⟨n, w', hw, hpos, hc⟩ := ha s.os _ hne
  have hle := os.write_le s.os _ n (by rw [hw])
  rw [List.length_drop] at hle
  refine ⟨⟨s.totalBytesWritten + n, w'⟩, ?_, by simp only; omega, by simp only; omega, ?_⟩
  · simp only [writeBlock, ne_eq, if_pos (show ¬ s.totalBytesWritten = buffer.length by omega), hw]
  · rw [hc, Nat.add_sub_cancel_left]

/-- **`writeBlock` puts its buffer on the stream.** -/
theorem writeBlock_appends (ha : Accepts os contents) (buffer : List UInt8) (w : ω) :
    ∃ u, WritesBlock os buffer w (.ok (), u) ∧ contents u = contents w ++ buffer := by
  have hends := While.ends_of_variant (w := writeBlock os buffer)
    (I := fun s => s.totalBytesWritten ≤ buffer.length ∧
      contents s.os = contents w ++ buffer.take s.totalBytesWritten)
    (Q := fun r => r.1 = .ok () ∧ contents r.2 = contents w ++ buffer)
    (fun s => buffer.length - s.totalBytesWritten) ?_ (s := ⟨0, w⟩) ?_
  · obtain ⟨⟨r, u⟩, he, hr, hc⟩ := hends
    subst hr
    exact ⟨u, he, hc⟩
  · rintro s ⟨hle, hc⟩
    by_cases hlt : s.totalBytesWritten < buffer.length
    · obtain ⟨s', hb, hgt, hle', hc'⟩ := writeBlock_round ha hlt
      refine Or.inl ⟨s', hb, ⟨hle', ?_⟩, by omega⟩
      rw [hc', hc, List.append_assoc, ← List.take_add]
      congr 3
      omega
    · have heq : s.totalBytesWritten = buffer.length := by omega
      refine Or.inr ⟨(.ok (), s.os), ?_, rfl, ?_⟩
      · simp [writeBlock, heq]
      · rw [hc, heq, List.take_length]
  · simp

/-! ### Reading -/

theorem length_overwrite {buffer bytes : List UInt8} {i : ℕ}
    (hle : i + bytes.length ≤ buffer.length) :
    (overwrite buffer i bytes).length = buffer.length := by
  simp only [overwrite, List.length_append, List.length_take, List.length_drop]
  omega

theorem take_overwrite {buffer bytes : List UInt8} {i : ℕ} (hle : i ≤ buffer.length) :
    (overwrite buffer i bytes).take (i + bytes.length) = buffer.take i ++ bytes := by
  have hlen : (buffer.take i ++ bytes).length = i + bytes.length := by
    rw [List.length_append, List.length_take, Nat.min_eq_left hle]
  rw [overwrite, ← hlen, List.take_left]

/-- The buffer starts with the bytes that were read off the stream `stream`. -/
structure Filled (contents : ω → List UInt8) (size : ℕ) (stream : List UInt8) (s : Reading ω) :
    Prop where
  length : s.buffer.length = size
  le : s.totalBytesRead ≤ size
  le_stream : s.totalBytesRead ≤ stream.length
  stored : s.buffer.take s.totalBytesRead = stream.take s.totalBytesRead
  rest : contents s.os = stream.drop s.totalBytesRead

variable {size : ℕ} {stream : List UInt8} {s : Reading ω}

theorem filled_start (buffer : List UInt8) (w : ω) :
    Filled contents buffer.length (contents w) ⟨buffer, 0, w⟩ where
  length := rfl
  le := Nat.zero_le _
  le_stream := Nat.zero_le _
  stored := rfl
  rest := rfl

theorem Filled.round (hs : Filled contents size stream s) (hd : Delivers os contents)
    (hlt : s.totalBytesRead < size) (hmore : s.totalBytesRead < stream.length) :
    ∃ s', (readBlock os size).body s = .inl s' ∧ Filled contents size stream s' ∧
      s.totalBytesRead < s'.totalBytesRead := by
  have hne : contents s.os ≠ [] := by
    rw [hs.rest, Ne, List.drop_eq_nil_iff]
    omega
  obtain ⟨bytes, w', hr, hbytes, hc⟩ := hd s.os (size - s.totalBytesRead) (by omega) hne
  have hle := os.read_le s.os _ bytes (by rw [hr])
  have hpos := List.length_pos_iff.mpr hbytes
  have hlen := hs.length
  rw [hs.rest] at hc
  have hstream : s.totalBytesRead + bytes.length ≤ stream.length := by
    have hl := congrArg List.length hc
    rw [List.length_drop, List.length_append] at hl
    omega
  have htake : bytes = (stream.drop s.totalBytesRead).take bytes.length := by
    rw [hc, List.take_left]
  refine ⟨⟨overwrite s.buffer s.totalBytesRead bytes, s.totalBytesRead + bytes.length, w'⟩,
    ?_, ?_, by simp only; omega⟩
  · simp only [readBlock, ne_eq, if_pos (show ¬ s.totalBytesRead = size by omega), hr]
  · constructor
    · rw [length_overwrite (by omega), hlen]
    · simp only
      omega
    · exact hstream
    · rw [take_overwrite (by omega), hs.stored, List.take_add, ← htake]
    · rw [← List.drop_drop, hc, List.drop_left]

theorem Filled.full (os : Os ω) (hs : Filled contents size stream s)
    (heq : s.totalBytesRead = size) :
    (readBlock os size).body s = .inr (.ok (stream.take size), s.os) ∧
      contents s.os = stream.drop size := by
  subst heq
  have hbuffer : s.buffer = stream.take s.totalBytesRead := by
    rw [← hs.stored, List.take_of_length_le (Nat.le_of_eq hs.length)]
  refine ⟨?_, hs.rest⟩
  simp [readBlock, ← hbuffer]

theorem Filled.exhausted {ending : Ending} (hs : Filled contents size stream s)
    (he : EndsWith os contents ending) (hlt : s.totalBytesRead < size)
    (heq : s.totalBytesRead = stream.length) :
    ∃ w', os.read s.os (size - s.totalBytesRead) = (ending.result, w') ∧ contents w' = [] := by
  apply he s.os (size - s.totalBytesRead) (by omega)
  rw [hs.rest, heq, List.drop_length]

/-- **`readBlock` takes a block off the stream**, however the reads cut it. -/
theorem readBlock_takes (hd : Delivers os contents) (buffer : List UInt8)
    (hle : buffer.length ≤ (contents w).length) :
    ∃ u, ReadsBlock os buffer w (.ok ((contents w).take buffer.length), u) ∧
      contents u = (contents w).drop buffer.length := by
  have hends := While.ends_of_variant (w := readBlock os buffer.length)
    (I := Filled contents buffer.length (contents w))
    (Q := fun r => r.1 = .ok ((contents w).take buffer.length) ∧
      contents r.2 = (contents w).drop buffer.length)
    (fun s => buffer.length - s.totalBytesRead) ?_ (filled_start buffer w)
  · obtain ⟨⟨r, u⟩, he, hr, hc⟩ := hends
    subst hr
    exact ⟨u, he, hc⟩
  · intro s hs
    have hsize := hs.le
    by_cases hlt : s.totalBytesRead < buffer.length
    · obtain ⟨s', hb, hs', hgt⟩ := hs.round hd hlt (by omega)
      exact Or.inl ⟨s', hb, hs', by omega⟩
    · obtain ⟨hb, hc⟩ := hs.full os (by omega)
      exact Or.inr ⟨_, hb, rfl, hc⟩

theorem readBlock_fails {text : String} (hd : Delivers os contents)
    (he : EndsWith os contents (.error text)) (buffer : List UInt8)
    (hlt : (contents w).length < buffer.length) :
    ∃ u, ReadsBlock os buffer w (.error ["Read syscall failed: " ++ text], u) := by
  have hends := While.ends_of_variant (w := readBlock os buffer.length)
    (I := Filled contents buffer.length (contents w))
    (Q := fun r => r.1 = .error ["Read syscall failed: " ++ text])
    (fun s => buffer.length - s.totalBytesRead) ?_ (filled_start buffer w)
  · obtain ⟨⟨r, u⟩, he, hr⟩ := hends
    subst hr
    exact ⟨u, he⟩
  · intro s hs
    have hstream := hs.le_stream
    by_cases hmore : s.totalBytesRead < (contents w).length
    · obtain ⟨s', hb, hs', hgt⟩ := hs.round hd (by omega) hmore
      exact Or.inl ⟨s', hb, hs', by omega⟩
    · obtain ⟨w', hr, -⟩ := hs.exhausted he (by omega) (by omega)
      refine Or.inr ⟨(.error ["Read syscall failed: " ++ text], w'), ?_, rfl⟩
      have hne : ¬ s.totalBytesRead = buffer.length := by omega
      simp only [readBlock, ne_eq, if_pos hne, hr, Ending.result]

/-- At the end of file the loop goes round for ever. -/
theorem readBlock_hangs (hd : Delivers os contents) (he : EndsWith os contents .endOfFile)
    (buffer : List UInt8) (hlt : (contents w).length < buffer.length) :
    (readBlock os buffer.length).Diverges ⟨buffer, 0, w⟩ := by
  refine While.diverges_of_invariant (I := Filled contents buffer.length (contents w)) ?_
    (filled_start buffer w)
  intro s hs
  have hstream := hs.le_stream
  by_cases hmore : s.totalBytesRead < (contents w).length
  · obtain ⟨s', hb, hs', -⟩ := hs.round hd (by omega) hmore
    exact ⟨s', hb, hs'⟩
  · -- a read that stores nothing leaves the state as it is
    obtain ⟨w', hr, hc⟩ := hs.exhausted he (by omega) (by omega)
    have hne : ¬ s.totalBytesRead = buffer.length := by omega
    refine ⟨⟨s.buffer, s.totalBytesRead, w'⟩, ?_, hs.length, hs.le, hstream, hs.stored, ?_⟩
    · have hnothing : overwrite s.buffer s.totalBytesRead [] = s.buffer := by simp [overwrite]
      simp only [readBlock, ne_eq, if_pos hne, hr, Ending.result, hnothing]
      rfl
    · rw [hc, List.drop_eq_nil_iff.mpr (by simp only; omega)]

/-! ### Sequences of blocks -/

/-- Consecutive calls of `writeBlock`, each of which returns. -/
inductive WritesBlocks (os : Os ω) : List (List UInt8) → ω → ω → Prop
  | nil (w : ω) : WritesBlocks os [] w w
  | cons {buffer : List UInt8} {buffers : List (List UInt8)} {w u t : ω}
      (hb : WritesBlock os buffer w (.ok (), u)) (hrest : WritesBlocks os buffers u t) :
      WritesBlocks os (buffer :: buffers) w t

/-- Consecutive calls of `readBlock`, each of which returns, and what they leave in the
buffers. -/
inductive ReadsBlocks (os : Os ω) : List (List UInt8) → List (List UInt8) → ω → ω → Prop
  | nil (w : ω) : ReadsBlocks os [] [] w w
  | cons {buffer filled : List UInt8} {buffers fills : List (List UInt8)} {w u t : ω}
      (hb : ReadsBlock os buffer w (.ok filled, u)) (hrest : ReadsBlocks os buffers fills u t) :
      ReadsBlocks os (buffer :: buffers) (filled :: fills) w t

theorem writesBlocks_append (ha : Accepts os contents) (buffers : List (List UInt8)) (w : ω) :
    ∃ t, WritesBlocks os buffers w t ∧ contents t = contents w ++ buffers.flatten := by
  induction buffers generalizing w with
  | nil => exact ⟨w, .nil w, by simp⟩
  | cons buffer buffers ih =>
      obtain ⟨u, hb, hu⟩ := writeBlock_appends ha buffer w
      obtain ⟨t, hrest, ht⟩ := ih u
      refine ⟨t, .cons hb hrest, ?_⟩
      rw [ht, hu, List.flatten_cons, List.append_assoc]

theorem readsBlocks_take (hd : Delivers os contents) (blocks : List (List UInt8)) :
    ∀ (buffers : List (List UInt8)) (w : ω) (rest : List UInt8),
      buffers.map List.length = blocks.map List.length → contents w = blocks.flatten ++ rest →
      ∃ t, ReadsBlocks os buffers blocks w t ∧ contents t = rest := by
  induction blocks with
  | nil =>
      intro buffers w rest hsizes hc
      obtain rfl := List.map_eq_nil_iff.mp hsizes
      exact ⟨w, .nil w, hc⟩
  | cons block blocks ih =>
      intro buffers w rest hsizes hc
      cases buffers with
      | nil => cases hsizes
      | cons buffer buffers =>
          rw [List.map_cons, List.map_cons, List.cons.injEq] at hsizes
          obtain ⟨hsize, hsizes⟩ := hsizes
          rw [List.flatten_cons, List.append_assoc] at hc
          have hle : buffer.length ≤ (contents w).length := by
            rw [hc, List.length_append]
            omega
          obtain ⟨u, hb, hu⟩ := readBlock_takes hd buffer hle
          rw [hc, hsize, List.take_left] at hb
          rw [hc, hsize, List.drop_left] at hu
          obtain ⟨t, hrest, ht⟩ := ih buffers u rest hsizes hu
          exact ⟨t, .cons hb hrest, ht⟩

/-- **`readBlock` undoes `writeBlock`**, however the calls cut the bytes: the blocks written are
on the stream in order, and each read of a block of the same size yields it and leaves the
blocks after it. -/
theorem readBlock_undoes_writeBlock (ha : Accepts os contents) (hd : Delivers os contents)
    (hempty : contents w = []) (blocks buffers : List (List UInt8))
    (hsizes : buffers.map List.length = blocks.map List.length) :
    ∃ t, WritesBlocks os blocks w t ∧ contents t = blocks.flatten ∧
      ∀ k, ∃ u, ReadsBlocks os (buffers.take k) (blocks.take k) t u ∧
        contents u = (blocks.drop k).flatten := by
  obtain ⟨t, hwrites, ht⟩ := writesBlocks_append ha blocks w
  rw [hempty, List.nil_append] at ht
  refine ⟨t, hwrites, ht, fun k => ?_⟩
  apply readsBlocks_take hd
  · rw [List.map_take, List.map_take, hsizes]
  · rw [ht, ← List.flatten_append, List.take_append_drop]

/-- Three blocks, one of them empty, over a stream that moves at most two bytes at a time. -/
theorem readBlock_undoes_writeBlock_trickle :
    ∃ t, WritesBlocks (trickle 1 .endOfFile) [[1, 2, 3], [], [4, 5]] [] t ∧
      t = [1, 2, 3, 4, 5] ∧
      ∃ u, ReadsBlocks (trickle 1 .endOfFile) [[0, 0, 0], []] [[1, 2, 3], []] t u ∧
        u = [4, 5] := by
  obtain ⟨t, hwrites, ht, hreads⟩ := readBlock_undoes_writeBlock (w := [])
    (trickle_accepts 1 .endOfFile) (trickle_delivers 1 .endOfFile) rfl
    [[1, 2, 3], [], [4, 5]] [[0, 0, 0], [], [0, 0]] rfl
  exact ⟨t, hwrites, ht, hreads 2⟩

/-! ### When `readBlock` ends -/

/-- `readBlock` ends, with a full buffer or with a fatal error. -/
def Settles (os : Os ω) (contents : ω → List UInt8) (buffer : List UInt8) (w : ω) : Prop :=
  (∃ r, ReadsBlock os buffer w r) ∧ ∀ r, ReadsBlock os buffer w r →
    (∃ filled, r.1 = .ok filled ∧ filled.length = buffer.length ∧
      contents w = filled ++ contents r.2) ∨ ∃ lines, r.1 = .error lines

/-- **When `readBlock` ends.**  On a stream that delivers its bytes and then reports the end of
file or an error, exactly when there are bytes enough for the buffer or the stream ends in an
error. -/
theorem readBlock_settles_iff {ending : Ending} (hd : Delivers os contents)
    (he : EndsWith os contents ending) (buffer : List UInt8) (w : ω) :
    Settles os contents buffer w ↔
      buffer.length ≤ (contents w).length ∨ ∃ text, ending = .error text := by
  constructor
  · rintro ⟨⟨r, hr⟩, -⟩
    by_contra hnot
    push Not at hnot
    obtain ⟨hlt, hending⟩ := hnot
    cases ending with
    | endOfFile => exact (readBlock_hangs (w := w) hd he buffer (by omega)).not_ends hr
    | error text => exact hending text rfl
  · intro hcond
    by_cases hle : buffer.length ≤ (contents w).length
    · obtain ⟨u, hr, hu⟩ := readBlock_takes hd buffer hle
      refine ⟨⟨_, hr⟩, fun r hr' => ?_⟩
      obtain rfl := hr.unique hr'
      refine Or.inl ⟨_, rfl, ?_, ?_⟩
      · rw [List.length_take, Nat.min_eq_left hle]
      · rw [hu, List.take_append_drop]
    · rcases hcond with hle' | ⟨text, rfl⟩
      · exact absurd hle' hle
      · obtain ⟨u, hr⟩ := readBlock_fails hd he buffer (Nat.lt_of_not_le hle)
        refine ⟨⟨_, hr⟩, fun r hr' => ?_⟩
        obtain rfl := hr.unique hr'
        exact Or.inr ⟨_, rfl⟩

theorem readBlock_settles_iff_trickle :
    Settles (trickle 0 (.error "Connection reset by peer")) id [0, 0] [1] ∧
      ¬ Settles (trickle 0 .endOfFile) id [0, 0] [1] := by
  constructor
  · exact (readBlock_settles_iff (trickle_delivers 0 _) (trickle_endsWith 0 _) _ _).mpr
      (Or.inr ⟨_, rfl⟩)
  · rw [readBlock_settles_iff (trickle_delivers 0 _) (trickle_endsWith 0 .endOfFile)]
    simp

/-- One byte is asked for and the stream is at the end of file: no number of rounds is
enough. -/
theorem readBlock_at_endOfFile :
    (∀ n, (readBlock (trickle 0 .endOfFile) 1).run n ⟨[0], 0, []⟩ = none) ∧
      ¬ Settles (trickle 0 .endOfFile) id [0] [] := by
  have hdiv : (readBlock (trickle 0 .endOfFile) 1).Diverges ⟨[0], 0, []⟩ :=
    readBlock_hangs (trickle_delivers 0 .endOfFile) (trickle_endsWith 0 .endOfFile) [0]
      (by decide)
  refine ⟨hdiv, ?_⟩
  rintro ⟨⟨r, hr⟩, -⟩
  exact hdiv.not_ends hr

end Treadmill
