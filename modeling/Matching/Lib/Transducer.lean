import Mathlib.Data.List.Infix

/-! Resumable transducers: machines that turn one stream into another while the input and
    the room for the output come in pieces of any size. What a state means is all the output
    that is still to come, for any input that is still to come; a call only moves some of it
    from the one to the other. -/

namespace Matching

variable {σ α β ε : Type}

/-- What a call of `process` leaves behind. It has finished if it has read all it was given. -/
structure Transduced (σ α β : Type) where
  finished : Bool
  out : List β
  rest : List α
  state : σ

/-- `out` written before the rest of a call. -/
def Transduced.emit (out : List β) (c : Transduced σ α β) : Transduced σ α β :=
  { c with out := out ++ c.out }

/-- `process` and `finish` are given the room there is; `finish` says whether all is written. -/
structure Transducer (σ α β ε : Type) where
  init : σ
  process : σ → ℕ → List α → Except ε (Transduced σ α β)
  finish : σ → ℕ → Except ε (Bool × List β × σ)

/-- A meaning of the states: which of them still read, all that is put out from there on if the
    input goes on with a given list, and what `finish` has still to put out. -/
structure Denotation (σ α β ε : Type) where
  reads : σ → Prop
  whole : σ → List α → Except ε (List β)
  left : σ → Except ε (List β)

namespace Denotation

variable {d : Denotation σ α β ε} {n k : ℕ} {s s₁ s' : σ} {xs ys rest : List α} {x : α}
  {out text : List β} {e : ε}
  {c : Transduced σ α β} {r : Except ε (Transduced σ α β)} {fin : Bool}

/-- A call moves `c.out` from what is to come to the output, and stops for
    want of input or of room. -/
structure Moves (d : Denotation σ α β ε) (n : ℕ) (s : σ) (xs : List α) (c : Transduced σ α β) :
    Prop where
  reads : d.reads c.state
  taken : ∃ taken, xs = taken ++ c.rest ∧
    ∀ ys, d.whole s (taken ++ ys) = (d.whole c.state ys).map (c.out ++ ·)
  room : c.out.length ≤ n
  finished : c.finished = true → c.rest = []
  full : c.finished = false → c.out.length = n

theorem map_append_map (w : Except ε (List β)) (out out' : List β) :
    (w.map (out ++ ·)).map (out' ++ ·) = w.map (out' ++ out ++ ·) := by
  cases w with
  | error e => rfl
  | ok ys => exact congrArg Except.ok (List.append_assoc out' out ys).symm

theorem map_nil_append (w : Except ε (List β)) : w = w.map ([] ++ ·) := by cases w <;> rfl

theorem map_append_ok {w : Except ε (List β)} (h : .ok text = w.map (out ++ ·)) :
    ∃ more, w = .ok more ∧ text = out ++ more := by
  cases w with
  | error e => cases h
  | ok more => exact ⟨more, rfl, Except.ok.inj h⟩

/-- A call moves output, or fails on what no continuation could save. -/
inductive Sound (d : Denotation σ α β ε) (n : ℕ) (s : σ) (xs : List α) :
    Except ε (Transduced σ α β) → Prop
  | moves {c : Transduced σ α β} (h : d.Moves n s xs c) : d.Sound n s xs (.ok c)
  | fails {e : ε} (h : ∀ ys, d.whole s (xs ++ ys) = .error e) : d.Sound n s xs (.error e)

theorem Moves.rest_le (h : d.Moves n s xs c) : c.rest.length ≤ xs.length := by
  obtain ⟨taken, htaken, -⟩ := h.taken
  rw [htaken, List.length_append]
  omega

/-- A call that has something to read and room to write reads or writes something. -/
theorem Moves.progress (h : d.Moves n s xs c) (hxs : xs ≠ []) (hn : 0 < n) :
    c.rest.length < xs.length + c.out.length := by
  have hpos := List.length_pos_of_ne_nil hxs
  have hle := h.rest_le
  cases hfin : c.finished with
  | true =>
    rw [h.finished hfin, List.length_nil]
    omega
  | false =>
    have := h.full hfin
    omega

theorem Sound.ok (h : d.Sound n s xs (.ok c)) : d.Moves n s xs c := by
  cases h with
  | moves h => exact h

/-- The input was used up. -/
theorem Sound.done (hreads : d.reads s') (h : ∀ ys, d.whole s ys = d.whole s' ys) :
    d.Sound n s [] (.ok ⟨true, [], [], s'⟩) := .moves
  { reads := hreads
    taken := ⟨[], rfl, fun ys => by rw [List.nil_append, h]; exact map_nil_append _⟩
    room := Nat.zero_le n
    finished := fun _ => rfl
    full := by simp }

/-- The room was used up. -/
theorem Sound.stuck (hreads : d.reads s') (h : ∀ ys, d.whole s ys = d.whole s' ys) :
    d.Sound 0 s xs (.ok ⟨false, [], xs, s'⟩) := .moves
  { reads := hreads
    taken := ⟨[], rfl, fun ys => by rw [List.nil_append, h]; exact map_nil_append _⟩
    room := le_rfl
    finished := by simp
    full := fun _ => rfl }

/-- A call that first reads `pre` and writes `out`. -/
theorem Sound.step (pre : List α) (out : List β)
    (h : ∀ ys, d.whole s (pre ++ ys) = (d.whole s₁ ys).map (out ++ ·)) (hr : d.Sound n s₁ xs r) :
    d.Sound (n + out.length) s (pre ++ xs) (r.map (.emit out)) := by
  cases hr with
  | fails hr =>
    refine .fails (fun ys => ?_)
    rw [List.append_assoc, h, hr ys]
    rfl
  | @moves c hr =>
    obtain ⟨hreads, ⟨taken, htaken, hwhole⟩, hroom, hfinished, hfull⟩ := hr
    have hlen : (out ++ c.out).length = n + out.length ↔ c.out.length = n := by
      rw [List.length_append]
      omega
    refine .moves ⟨hreads, ⟨pre ++ taken, by rw [htaken, List.append_assoc]; rfl, fun ys => ?_⟩, ?_,
      hfinished, fun hf => ?_⟩
    · rw [List.append_assoc, h, hwhole]
      exact map_append_map _ c.out out
    · exact (List.length_append ▸ by omega : (out ++ c.out).length ≤ n + out.length)
    · exact hlen.mpr (hfull hf)

theorem Sound.write (out : List β) (h : ∀ ys, d.whole s ys = (d.whole s₁ ys).map (out ++ ·))
    (hr : d.Sound n s₁ xs r) :
    d.Sound (n + out.length) s xs (r.map (.emit out)) := hr.step [] out h

theorem Sound.read (out : List β) (h : ∀ ys, d.whole s (x :: ys) = (d.whole s₁ ys).map (out ++ ·))
    (hr : d.Sound n s₁ xs r) : d.Sound (n + out.length) s (x :: xs) (r.map (.emit out)) :=
  hr.step [x] out h

/-- An element read and nothing written. -/
theorem Sound.skip (h : ∀ ys, d.whole s (x :: ys) = d.whole s₁ ys) (hr : d.Sound n s₁ xs r) :
    d.Sound n s (x :: xs) r := by
  have hstep := hr.read [] (fun ys => (h ys).trans (map_nil_append _))
  have hemit : r.map (Transduced.emit []) = r := by cases r <;> rfl
  rwa [hemit] at hstep

/-- A call of `finish` where `text` is left: it writes all of it, or as much
    as there is room for. -/
structure Ends (d : Denotation σ α β ε) (n : ℕ) (text : List β) (r : Bool × List β × σ) : Prop where
  moved : ∃ more, d.left r.2.2 = .ok more ∧ text = r.2.1 ++ more ∧ (r.1 = true → more = [])
  full : r.1 = false → r.2.1.length = n

theorem Ends.done (h : d.left s = .ok []) : d.Ends n [] (true, [], s) :=
  ⟨⟨[], h, rfl, fun _ => rfl⟩, by simp⟩

theorem Ends.stuck (h : d.left s = .ok text) : d.Ends 0 text (false, [], s) :=
  ⟨⟨text, h, rfl, by simp⟩, fun _ => rfl⟩

theorem Ends.write (b : β) {r : Bool × List β × σ} (h : d.Ends n text r) :
    d.Ends (n + 1) (b :: text) (r.1, b :: r.2.1, r.2.2) := by
  obtain ⟨⟨more, hleft, rfl, hdone⟩, hfull⟩ := h
  exact ⟨⟨more, hleft, rfl, hdone⟩, fun hf => congrArg (· + 1) (hfull hf)⟩

end Denotation

/-- The machine behaves as its states mean: calls of `process` are sound, and `finish`
    puts out what is left. -/
structure Transducer.Denotes (t : Transducer σ α β ε) (d : Denotation σ α β ε) : Prop where
  init : d.reads t.init
  process : ∀ n xs {s}, d.reads s → d.Sound n s xs (t.process s n xs)
  ends : ∀ {s}, d.reads s → d.whole s [] = d.left s
  finish_ok : ∀ {n s r}, t.finish s n = .ok r → ∃ text, d.left s = .ok text ∧ d.Ends n text r
  finish_error : ∀ {n s e}, t.finish s n = .error e → d.left s = .error e

namespace Transducer

variable {t : Transducer σ α β ε} {d : Denotation σ α β ε} {s s' : σ} {xs rest : List α}
  {out text : List β}
  {calls : List (ℕ × ℕ)} {rooms : List ℕ} {fin : Bool} {e : ε}

/-! ### Runs in pieces -/

/-- Calls of `process`, each with the next `k` elements of the input and room for `n`. -/
def feed (t : Transducer σ α β ε) : List (ℕ × ℕ) → σ → List α → Except ε (List β × List α × σ)
  | [], s, xs => .ok ([], xs, s)
  | (k, n) :: calls, s, xs => do
    let c ← t.process s n (xs.take k)
    let (out, rest, s') ← t.feed calls c.state (c.rest ++ xs.drop k)
    return (c.out ++ out, rest, s')

/-- Calls of `finish` until one says that all is written. -/
def close (t : Transducer σ α β ε) : List ℕ → σ → Except ε (Bool × List β)
  | [], _ => .ok (false, [])
  | n :: rooms, s => do
    let (fin, out, s') ← t.finish s n
    if fin then return (true, out)
    let (fin, out') ← t.close rooms s'
    return (fin, out ++ out')

/-- The input fed in pieces and, once it is used up, the end: whether it was
    reached, and the output. -/
def inPieces (t : Transducer σ α β ε) (calls : List (ℕ × ℕ)) (rooms : List ℕ) (input : List α) :
    Except ε (Bool × List β) := do
  let (out, rest, s) ← t.feed calls t.init input
  if rest.isEmpty then
    let (fin, out') ← t.close rooms s
    return (fin, out ++ out')
  return (false, out)

/-- The calls that are given an element and room for one. -/
def useful (calls : List (ℕ × ℕ)) : ℕ := calls.countP (fun c => 0 < c.1 ∧ 0 < c.2)

/-- The calls that are given room. -/
def roomy (rooms : List ℕ) : ℕ := rooms.countP (0 < ·)

/-- However `input` is cut and whatever room there is, `text` is put out: a beginning of it where
    the calls run out, and all of it by enough calls that are given something. -/
def Delivers (t : Transducer σ α β ε) (input : List α) (text : List β) : Prop :=
  ∀ calls rooms, ∃ fin out, t.inPieces calls rooms input = .ok (fin, out) ∧ out <+: text ∧
    (fin = true → out = text) ∧
    (input.length + text.length ≤ useful calls → text.length < roomy rooms → fin = true)

namespace Denotes

/-- What a run of `process` writes is the beginning of what there is to write, and
    enough calls read all. -/
theorem feed_ok (h : t.Denotes d) :
    ∀ (calls : List (ℕ × ℕ)) {s : σ} {xs : List α} {text : List β}, d.reads s →
    d.whole s xs = .ok text →
      ∃ out rest s' more, t.feed calls s xs = .ok (out, rest, s') ∧ d.reads s' ∧
      d.whole s' rest = .ok more ∧ text = out ++ more ∧ rest.length ≤ xs.length ∧
      (xs.length + text.length ≤ useful calls → rest = [])
  | [], s, xs, text, hreads, hwhole => by
    refine ⟨[], xs, s, text, rfl, hreads, hwhole, rfl, le_rfl, fun hle => ?_⟩
    rw [useful, List.countP_nil] at hle
    exact List.length_eq_zero_iff.mp (by omega)
  | (k, n) :: calls, s, xs, text, hreads, hwhole => by
    have hsound := h.process n (xs.take k) hreads
    rw [← List.take_append_drop k xs] at hwhole
    rcases hc : t.process s n (xs.take k) with e | c
    · rw [hc] at hsound
      cases hsound with
      | fails hfails =>
        rw [hfails] at hwhole
        cases hwhole
    rw [hc] at hsound
    have hsound := hsound.ok
    obtain ⟨taken, htaken, hmoved⟩ := hsound.taken
    rw [htaken, List.append_assoc, hmoved] at hwhole
    obtain ⟨more, hmore, rfl⟩ := Denotation.map_append_ok hwhole.symm
    obtain ⟨out, rest, s', left, hfeed, hs', hleft, rfl, hshort, hall⟩ :=
      feed_ok h calls hsound.reads hmore
    have hlen : (c.rest ++ xs.drop k).length + (xs.take k).length = xs.length + c.rest.length := by
      simp only [List.length_append, List.length_drop, List.length_take]
      omega
    have hle := hsound.rest_le
    refine ⟨c.out ++ out, rest, s', left, ?_, hs', hleft, (List.append_assoc _ _ _).symm, by omega,
      fun hcount => ?_⟩
    · simp only [feed, hc, hfeed, bind, Except.bind]
      rfl
    rcases eq_or_ne xs [] with rfl | hxs
    · exact List.length_eq_zero_iff.mp (Nat.le_zero.mp (hshort.trans (by simpa using hle)))
    apply hall
    rw [useful, List.countP_cons, ← useful, List.length_append] at hcount
    split at hcount
    · next hpos =>
      simp only [decide_eq_true_eq] at hpos
      have hne : xs.take k ≠ [] := by
        rw [Ne, List.take_eq_nil_iff, not_or]
        exact ⟨hpos.1.ne', hxs⟩
      have hprogress := hsound.progress hne hpos.2
      omega
    · omega

/-- What a run of `finish` writes is the beginning of what is left, and enough calls write all. -/
theorem close_ok (h : t.Denotes d) :
    ∀ (rooms : List ℕ) {s : σ} {text : List β}, d.left s = .ok text →
    ∃ fin out more, t.close rooms s = .ok (fin, out) ∧ text = out ++ more ∧
      (fin = true → more = []) ∧
      (text.length < roomy rooms → fin = true)
  | [], s, text, _ => ⟨false, [], text, rfl, rfl, by simp, by simp [roomy]⟩
  | n :: rooms, s, text, hleft => by
    rcases hc : t.finish s n with e | ⟨fin, out, s'⟩
    · rw [h.finish_error hc] at hleft
      cases hleft
    obtain ⟨text, htext, ⟨more, hmore, hsplit, hfin⟩, hfull⟩ := h.finish_ok hc
    obtain rfl := Except.ok.inj (hleft.symm.trans htext)
    subst hsplit
    cases fin with
    | true =>
      refine ⟨true, out, more, ?_, rfl, fun _ => hfin rfl, fun _ => rfl⟩
      simp only [close, hc, bind, Except.bind]
      rfl
    | false =>
      obtain ⟨fin, out', left, hclose, rfl, hdone, hall⟩ := close_ok h rooms hmore
      refine ⟨fin, out ++ out', left, ?_, (List.append_assoc _ _ _).symm, hdone,
        fun hcount => hall ?_⟩
      · simp only [close, hc, hclose, bind, Except.bind, Bool.false_eq_true, if_false]
        rfl
      · rw [roomy, List.countP_cons, ← roomy, List.length_append, hfull rfl] at hcount
        split at hcount
        · next hpos =>
          rw [decide_eq_true_eq] at hpos
          omega
        · omega

/-- A machine delivers the meaning of its first state. -/
theorem delivers (h : t.Denotes d) (hwhole : d.whole t.init xs = .ok text) :
    t.Delivers xs text := by
  intro calls rooms
  obtain ⟨out, rest, s, more, hfeed, hs, hmore, rfl, -, hall⟩ := h.feed_ok calls h.init hwhole
  rcases rest with _ | ⟨x, rest⟩
  · rw [h.ends hs] at hmore
    obtain ⟨fin, out', left, hclose, rfl, hdone, hclosed⟩ := h.close_ok rooms hmore
    refine ⟨fin, out ++ out', ?_, ?_, fun hf => by rw [hdone hf, List.append_nil],
      fun _ hroom => hclosed ?_⟩
    · simp only [inPieces, hfeed, hclose, bind, Except.bind]
      rfl
    · rw [← List.append_assoc]
      exact List.prefix_append _ _
    · rw [List.length_append] at hroom
      omega
  · refine ⟨false, out, ?_, List.prefix_append _ _, by simp, fun hcount _ => ?_⟩
    · simp only [inPieces, hfeed, bind, Except.bind]
      rfl
    · cases hall hcount

end Denotes

end Transducer

end Matching
