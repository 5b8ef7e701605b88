import Matching.Common.Hex
import Matching.Props.Base64

/-! Pulling through `CodecSource` and pushing through `transcode` agree for the codecs whose
    `finish` writes nothing behind a finished `process`. The base64 encoder is not one of them: what
    its `finish` writes lands behind the caller's buffer. -/

namespace Matching.Common

variable {σ : Type} {c : Codec σ} {d : Denotation σ UInt8 UInt8 Thrown} {s : σ}
  {input text : List UInt8}

/-! ### Pushing -/

namespace Codec

theorem processAll_sound (h : c.Denotes d) :
    ∀ (rounds : ℕ) {s : σ} {input : List UInt8} {r : Except Thrown (List UInt8 × σ)},
    d.reads s → processAll c rounds s input = some r →
      match r with
      | .error e => d.whole s input = .error e
      | .ok (out, s') => d.reads s' ∧ d.whole s input = (d.whole s' []).map (out ++ ·)
  | rounds + 1, s, input, r, hs, hr => by
    have hsound := h.process obufSize input hs
    rw [processAll] at hr
    rcases hp : c.process s obufSize input with e | p
    · rw [hp] at hr hsound
      cases hr
      cases hsound with
      | fails hfails => simpa using hfails []
    rw [hp] at hr hsound
    obtain ⟨taken, htaken, hmoved⟩ := hsound.ok.taken
    simp only at hr
    split at hr
    · next hfin =>
      cases hr
      have hrest := hsound.ok.finished hfin
      rw [hrest, List.append_nil] at htaken
      refine ⟨hsound.ok.reads, ?_⟩
      rw [htaken, ← hmoved, List.append_nil]
    · have hinput : d.whole s input = (d.whole p.state p.rest).map (p.out ++ ·) := by
        rw [htaken, hmoved]
      rw [hinput]
      rcases hrec : processAll c rounds p.state p.rest with _ | q
      · rw [hrec] at hr
        cases hr
      rw [hrec] at hr
      have hih := processAll_sound h rounds hsound.ok.reads hrec
      rcases q with e | ⟨out, s'⟩
      · cases hr
        rw [hih]
        rfl
      · cases hr
        refine ⟨hih.1, ?_⟩
        rw [hih.2]
        exact Denotation.map_append_map _ out p.out

theorem finishAll_sound (h : c.Denotes d) : ∀ (rounds : ℕ) {s : σ} {r : Except Thrown (List UInt8)},
    finishAll c rounds s = some r → d.left s = r
  | rounds + 1, s, r, hr => by
    rw [finishAll] at hr
    rcases hf : c.finish s obufSize with e | ⟨fin, out, s'⟩
    · rw [hf] at hr
      cases hr
      exact h.finish_error hf
    obtain ⟨text, hleft, ⟨more, hmore, hsplit, hdone⟩, -⟩ := h.finish_ok hf
    subst hsplit
    simp only [hf] at hr
    rw [hleft]
    cases fin with
    | true =>
      cases hr
      rw [hdone rfl, List.append_nil]
    | false =>
      rcases hrec : finishAll c rounds s' with _ | q
      · rw [hrec] at hr
        cases hr
      rw [hrec] at hr
      cases hr
      rw [← finishAll_sound h rounds hrec, hmore]
      rfl

/-- What `transcode` gives is the meaning of the initial state. -/
theorem transcode_sound (h : c.Denotes d) {rounds : ℕ} {r : Except Thrown (List UInt8)}
    (hr : transcode c rounds input = some r) : d.whole c.init input = r := by
  rw [transcode] at hr
  rcases hp : processAll c rounds c.init input with _ | e | ⟨out, s⟩
  · rw [hp] at hr
    cases hr
  · rw [hp] at hr
    cases hr
    exact processAll_sound h rounds h.init hp
  · obtain ⟨hreads, hwhole⟩ := processAll_sound h rounds h.init hp
    rw [hp] at hr
    rcases hf : finishAll c rounds s with _ | q
    · simp only [hf] at hr
      cases hr
    simp only [hf] at hr
    cases hr
    rw [hwhole, h.ends hreads, finishAll_sound h rounds hf]

theorem processAll_total (h : c.Denotes d) :
    ∀ (rounds : ℕ) {s : σ} {input text : List UInt8}, d.reads s →
    d.whole s input = .ok text → text.length < rounds → ∃ r, processAll c rounds s input = some r
  | rounds + 1, s, input, text, hs, hwhole, hlt => by
    have hsound := h.process obufSize input hs
    rw [processAll]
    rcases hp : c.process s obufSize input with e | p
    · exact ⟨_, rfl⟩
    rw [hp] at hsound
    simp only
    split
    · exact ⟨_, rfl⟩
    · next hfin =>
      obtain ⟨taken, htaken, hmoved⟩ := hsound.ok.taken
      rw [htaken, hmoved] at hwhole
      obtain ⟨more, hmore, rfl⟩ := Denotation.map_append_ok hwhole.symm
      have hfull := hsound.ok.full (Bool.eq_false_iff.mpr hfin)
      rw [List.length_append, hfull, obufSize] at hlt
      obtain ⟨r, hr⟩ := processAll_total h rounds hsound.ok.reads hmore (by omega)
      rw [hr]
      exact ⟨_, rfl⟩

theorem finishAll_total (h : c.Denotes d) :
    ∀ (rounds : ℕ) {s : σ} {text : List UInt8}, d.left s = .ok text →
    text.length < rounds → ∃ r, finishAll c rounds s = some r
  | rounds + 1, s, text, hleft, hlt => by
    rw [finishAll]
    rcases hf : c.finish s obufSize with e | ⟨fin, out, s'⟩
    · exact ⟨_, rfl⟩
    obtain ⟨text, hleft', ⟨more, hmore, hsplit, hdone⟩, hfull⟩ := h.finish_ok hf
    obtain rfl := Except.ok.inj (hleft.symm.trans hleft')
    subst hsplit
    cases fin with
    | true => exact ⟨_, rfl⟩
    | false =>
      have hlen := hfull rfl
      simp only at hlen
      rw [List.length_append, hlen, obufSize] at hlt
      obtain ⟨r, hr⟩ := finishAll_total h rounds hmore (by omega)
      simp only [hr]
      exact ⟨_, rfl⟩

/-- An input the codec accepts is transcoded in a number of rounds. -/
theorem transcode_total (h : c.Denotes d) (hwhole : d.whole c.init input = .ok text) :
    transcode c (text.length + 1) input = some (.ok text) := by
  obtain ⟨r, hr⟩ := processAll_total h (text.length + 1) h.init hwhole (Nat.lt_succ_self _)
  have hprocess := processAll_sound h _ h.init hr
  rcases r with e | ⟨out, s⟩
  · rw [hwhole] at hprocess
    cases hprocess
  obtain ⟨hreads, hmoved⟩ := hprocess
  rw [hwhole] at hmoved
  obtain ⟨more, hmore, hsplit⟩ := Denotation.map_append_ok hmoved
  rw [h.ends hreads] at hmore
  have hlen := congrArg List.length hsplit
  rw [List.length_append] at hlen
  obtain ⟨q, hq⟩ := finishAll_total h (text.length + 1) hmore (by omega)
  have hrun : transcode c (text.length + 1) input = some (q.map (out ++ ·)) := by
    simp only [transcode, hr, hq]
    rfl
  rw [hrun, ← transcode_sound h hrun, hwhole]

end Codec

/-! ### Pulling -/

/-- `finish` writes nothing and changes nothing behind a call of `process` that has finished. -/
def Quiet (c : Codec σ) (d : Denotation σ UInt8 UInt8 Thrown) : Prop :=
  ∀ {n s xs p}, d.reads s → c.process s n xs = .ok p → p.finished = true →
    ∀ {m r}, c.finish p.state m = .ok r → r = (true, [], p.state)

namespace CodecSource

variable {s : CodecSource σ} {n : ℕ}

/-- What is still to be transcoded: the rest of the buffer and the rest of the source. -/
def pending (s : CodecSource σ) : List UInt8 := s.ibuf.drop s.ibuf_ptr ++ s.source.rest

/-- The source stands before `text`. -/
structure Before (d : Denotation σ UInt8 UInt8 Thrown) (s : CodecSource σ) (text : List UInt8) :
    Prop where
  reads : d.reads s.codec
  whole : d.whole s.codec s.pending = .ok text
  ptr : s.ibuf_ptr ≤ s.ibuf.length

/-- Calls that are still possible before the end. -/
def toGo (s : CodecSource σ) (text : List UInt8) : ℕ :=
  s.source.grants.length + 2 * s.source.rest.length + s.ibuf.length + text.length

/-- What a read of the source, which may have ended, moves to the buffer. -/
theorem source_read {s s' : Source} {r : Option (List UInt8)} (h : s.read n = (r, s')) :
    s.rest = r.getD [] ++ s'.rest ∧ s'.grants = s.grants.tail := by
  cases r with
  | none =>
    obtain ⟨hrest, hrest', hgrants⟩ := Source.read_none h
    exact ⟨by rw [hrest, hrest']; rfl, hgrants⟩
  | some bytes =>
    obtain ⟨hrest, -, hgrants⟩ := Source.read_some h
    exact ⟨hrest, hgrants⟩

/-- Behind a call of `process` that has not finished the buffer keeps what was not read. -/
theorem drop_rest {ibuf taken rest : List UInt8} {k : ℕ} (h : ibuf.drop k = taken ++ rest) :
    ibuf.drop (ibuf.length - rest.length) = rest := by
  have hsuffix : rest <:+ ibuf :=
    (List.suffix_append taken rest).trans (h ▸ List.drop_suffix k ibuf)
  obtain ⟨pre, rfl⟩ := hsuffix
  rw [List.length_append, Nat.add_sub_cancel, List.drop_left]

/-- One call: it returns the beginning of the text, as much of it as there is room for, or the end
    where nothing is left. -/
theorem read_step (h : c.Denotes d) (hquiet : Quiet c d) (hs : s.Before d text) (hn : 1 ≤ n) :
    ∃ p, read c s n = .ok p ∧ p.beyond = [] ∧ (p.ret = none → text = []) ∧
      ∀ bytes, p.ret = some bytes → bytes.length ≤ n ∧
        ∃ more, text = bytes ++ more ∧ p.self.Before d more ∧ p.self.toGo more < s.toGo text := by
  rcases hread : s.source.read (buffer_size - s.ibuf.length) with ⟨r, source⟩
  obtain ⟨hrest, hgrants⟩ := source_read hread
  have hbuf : (s.ibuf ++ r.getD []).drop s.ibuf_ptr ++ source.rest = s.pending := by
    rw [pending, hrest, List.drop_append_of_le_length hs.ptr, List.append_assoc]
  have hsound := h.process n ((s.ibuf ++ r.getD []).drop s.ibuf_ptr) hs.reads
  have hwhole := hs.whole
  rw [← hbuf] at hwhole
  rcases hp : c.process s.codec n ((s.ibuf ++ r.getD []).drop s.ibuf_ptr) with e | p
  · rw [hp] at hsound
    cases hsound with
    | fails hfails =>
      rw [hfails] at hwhole
      cases hwhole
  rw [hp] at hsound
  obtain ⟨taken, htaken, hmoved⟩ := hsound.ok.taken
  rw [htaken, List.append_assoc, hmoved] at hwhole
  obtain ⟨more, hmore, rfl⟩ := Denotation.map_append_ok hwhole.symm
  have hlen := congrArg List.length hrest
  rw [List.length_append] at hlen
  have htail : source.grants.length ≤ s.source.grants.length := by
    rw [hgrants, List.length_tail]
    omega
  simp only [read, hread, hp, ok_bind]
  split
  · next hfin =>
    have hnil := hsound.ok.finished hfin
    rw [hnil, List.nil_append] at hmore
    cases r with
    | some got =>
      refine ⟨_, rfl, rfl, by simp, ?_⟩
      rintro bytes ⟨⟩
      refine ⟨hsound.ok.room, more, rfl, ⟨hsound.ok.reads, hmore, le_rfl⟩, ?_⟩
      -- A script that is used up gives a byte, unless the buffer was full, and the buffer is empty
      -- now.
      have hstrict : source.grants.length < s.source.grants.length ∨
          0 < s.ibuf.length + got.length := by
        rcases hg : s.source.grants with _ | ⟨g, gs⟩
        · rcases hbuf : s.ibuf with _ | ⟨b, bs⟩
          · rw [hbuf] at hread
            have hgot := Source.read_ne_nil hread (by decide) (by rw [hg]; exact List.not_mem_nil)
            have := List.length_pos_of_ne_nil hgot
            omega
          · rw [List.length_cons]
            omega
        · rw [hg] at hgrants
          rw [hgrants]
          exact .inl (Nat.lt_succ_self _)
      simp only [Option.getD_some] at hlen
      simp only [toGo, List.length_append, List.length_nil]
      omega
    | none =>
      rw [(Source.read_none hread).2.1, h.ends hsound.ok.reads] at hmore
      rcases hf : c.finish p.state (n - p.out.length) with e | q
      · rw [h.finish_error hf] at hmore
        cases hmore
      obtain ⟨left, hleft, ⟨⟨rest, hrest', -, hdone⟩, -⟩⟩ := h.finish_ok hf
      obtain rfl := hquiet hs.reads hp hfin hf
      obtain rfl : more = [] := Except.ok.inj (hmore.symm.trans (hdone rfl ▸ hrest'))
      simp only [ok_bind]
      refine ⟨_, rfl, rfl, fun hret => ?_, fun bytes hret => ?_⟩
      · simp only [and_true] at hret
        split at hret
        · next hout => rw [hout, List.nil_append]
        · cases hret
      · simp only [and_true] at hret
        split at hret
        · cases hret
        · next hout =>
          cases hret
          have hpos := List.length_pos_of_ne_nil hout
          refine ⟨hsound.ok.room, [], rfl, ⟨hsound.ok.reads, ?_, le_rfl⟩, ?_⟩
          · simp only [pending, List.drop_nil, List.nil_append, (Source.read_none hread).2.1]
            rw [h.ends hsound.ok.reads, hmore]
          · simp only [toGo, List.length_append, List.length_nil]
            omega
  · next hfin =>
    have hfull := hsound.ok.full (Bool.eq_false_iff.mpr hfin)
    refine ⟨_, rfl, rfl, by simp, ?_⟩
    rintro bytes ⟨⟩
    refine ⟨hsound.ok.room, more, rfl, ⟨hsound.ok.reads, ?_, ?_⟩, ?_⟩
    · simp only [pending]
      rw [drop_rest htaken]
      exact hmore
    · exact Nat.sub_le _ _
    · simp only [toGo, List.length_append]
      omega

/-- Each of these reads returns at most as many bytes as it has room for. -/
def Within (c : Codec σ) : List ℕ → CodecSource σ → Prop
  | [], _ => True
  | n :: sizes, s =>
    ∀ p bytes, read c s n = .ok p → p.ret = some bytes →
      bytes.length ≤ n ∧ Within c sizes p.self

/-- Calls with room for a byte: what they return is the beginning of the text, all of it
    once the end is reported, and enough of them come to the end. Nothing is returned or
    written beyond the room given. -/
theorem reads_run (h : c.Denotes d) (hquiet : Quiet c d) :
    ∀ (sizes : List ℕ) {s : CodecSource σ} {text : List UInt8},
    s.Before d text → (∀ n ∈ sizes, 1 ≤ n) →
      Within c sizes s ∧ ∃ ended out, reads c sizes s = .ok (ended, out, []) ∧
      out <+: text ∧ (ended = true → out = text) ∧ (s.toGo text < sizes.length → ended = true)
  | [], s, text, _, _ => ⟨trivial, false, [], rfl, List.nil_prefix, by simp, by simp⟩
  | n :: sizes, s, text, hs, hsizes => by
    obtain ⟨p, hp, hbeyond, hend, hmore⟩ := read_step h hquiet hs (hsizes n List.mem_cons_self)
    rcases hret : p.ret with _ | bytes
    · refine ⟨fun q bytes hq hret' => ?_, true, [], ?_, List.nil_prefix,
        fun _ => (hend hret).symm, fun _ => rfl⟩
      · obtain rfl := Except.ok.inj (hp.symm.trans hq)
        rw [hret] at hret'
        cases hret'
      · simp only [reads, hp, ok_bind, hret, hbeyond]
        rfl
    · obtain ⟨hroom, more, rfl, hbefore, hlt⟩ := hmore bytes hret
      obtain ⟨hwithin, ended, out, hreads, hpre, hdone, hall⟩ :=
        reads_run h hquiet sizes hbefore (fun m hm => hsizes m (List.mem_cons_of_mem n hm))
      have hfirst : Within c (n :: sizes) s := by
        intro q bytes' hq hret'
        obtain rfl := Except.ok.inj (hp.symm.trans hq)
        obtain rfl := Option.some.inj (hret.symm.trans hret')
        exact ⟨hroom, hwithin⟩
      refine ⟨hfirst, ended, bytes ++ out, ?_, (List.prefix_append_right_inj bytes).mpr hpre,
        fun he => by rw [hdone he], fun hle => hall ?_⟩
      · simp only [reads, hp, ok_bind, hret, hreads, hbeyond]
        rfl
      · rw [List.length_cons] at hle
        omega

end CodecSource

/-! ### The four codecs -/

/-- Reads with room for a byte return, up to the first negative value, the output of `transcode` on
    the whole input, if the codec accepts it, each at most what it has room for, and write nothing
    beyond the caller's buffer; the negative value comes. -/
def PullsAsPushed (c : Codec σ) (input : List UInt8) : Prop :=
  ∀ rounds text, Codec.transcode c rounds input = some (.ok text) →
    ∀ grants sizes : List ℕ, (∀ n ∈ sizes, 1 ≤ n) →
    CodecSource.Within c sizes (.init c ⟨input, grants⟩) ∧
    ∃ ended out, CodecSource.reads c sizes (.init c ⟨input, grants⟩) = .ok (ended, out, []) ∧
      out <+: text ∧ (ended = true → out = text) ∧
      (grants.length + 2 * input.length + text.length < sizes.length → ended = true)

theorem pulls_of_quiet (h : c.Denotes d) (hquiet : Quiet c d) (input : List UInt8) :
    PullsAsPushed c input := by
  intro rounds text htext grants sizes hsizes
  have hbefore : (CodecSource.init c ⟨input, grants⟩).Before d text :=
    ⟨h.init, Codec.transcode_sound h htext, le_rfl⟩
  obtain ⟨hwithin, ended, out, hreads, hpre, hdone, hall⟩ :=
    CodecSource.reads_run h hquiet sizes hbefore hsizes
  exact ⟨hwithin, ended, out, hreads, hpre, hdone,
    fun hlt => hall (by simpa [CodecSource.toGo, CodecSource.init] using hlt)⟩

theorem HexEncoder.run_finished (s : HexEncoder) :
    ∀ (n : ℕ) (live : Option UInt8) (input : List UInt8),
    (s.run live n input).finished = true → (s.run live n input).state.buf_full = false
  | n, none, [], _ => by rw [run]
  | 0, none, _ :: _, h | 0, some _, _, h => by cases h
  | n + 1, none, b :: input, h => run_finished s n (some b) input h
  | n + 1, some _, input, h => run_finished s n none input h

theorem HexEncoder.quiet : Quiet codec meaning := by
  intro n s xs p _ hp hfin m r hr
  cases hp
  have hempty := run_finished s n _ xs hfin
  simp only [codec, finish, process, hempty, Bool.false_eq_true, if_false, run_nil, ok_bind] at hr
  cases hr
  rw [← hempty]

theorem HexDecoder.quiet : Quiet codec meaning := by
  intro n s xs p _ _ _ m r hr
  simp only [codec, finish] at hr
  split at hr <;> cases hr
  rfl

theorem Base64Decoder.quiet : Quiet codec meaning := by
  intro n s xs p _ _ _ m r hr
  simp only [codec, finish] at hr
  split at hr <;> cases hr
  rfl

namespace Base64Encoder

/-! ### The base64 encoder -/

theorem encode_ne_pad (i : ℕ) : encode i ≠ pad := by
  rcases Nat.lt_or_ge i 64 with hi | hi
  · rw [Base64.encode_digit i hi]
    exact Base64.digit_ne_pad i hi
  · rw [encode, List.getD_eq_getElem?_getD,
      List.getElem?_eq_none (by simpa [base64Encode] using hi)]
    decide

/-- Padding is written by `finish` alone. -/
theorem run_no_pad (s : Base64Encoder) :
    ∀ (n : ℕ) (l : Label) (input : List UInt8), pad ∉ (s.run l n input).out
  | n, .state0, [] | n, .state1 _, [] | n, .state2 _, [] => by
    rw [run]
    exact List.not_mem_nil
  | 0, .state0, _ :: _ | 0, .state1 _, _ :: _ | 0, .state2 _, _ :: _ | 0, .state3 _, _ =>
    List.not_mem_nil
  | n + 1, .state0, b0 :: input =>
    List.not_mem_cons_of_ne_of_not_mem (encode_ne_pad _).symm (run_no_pad s n (.state1 b0) input)
  | n + 1, .state1 _, b1 :: input =>
    List.not_mem_cons_of_ne_of_not_mem (encode_ne_pad _).symm (run_no_pad s n (.state2 b1) input)
  | n + 1, .state2 _, b0 :: input =>
    List.not_mem_cons_of_ne_of_not_mem (encode_ne_pad _).symm (run_no_pad s n (.state3 b0) input)
  | n + 1, .state3 _, input =>
    List.not_mem_cons_of_ne_of_not_mem (encode_ne_pad _).symm (run_no_pad s n .state0 input)

theorem process_no_pad {s : Base64Encoder} {n : ℕ} {input : List UInt8}
    {p : Transduced Base64Encoder UInt8 UInt8} (h : s.process n input = .ok p) : pad ∉ p.out := by
  rw [process] at h
  split at h <;> cases h
  all_goals exact run_no_pad s n _ input

theorem read_no_pad {s : CodecSource Base64Encoder} {n : ℕ} {p : Pulled Base64Encoder}
    {bytes : List UInt8} (h : CodecSource.read codec s n = .ok p) (hret : p.ret = some bytes) :
    pad ∉ bytes := by
  simp only [CodecSource.read, bind_ok] at h
  obtain ⟨q, hq, h⟩ := h
  have hpad := process_no_pad hq
  split at h
  · split at h
    · cases h
      cases hret
      exact hpad
    · obtain ⟨r, -, h⟩ := bind_ok.mp h
      cases h
      simp only at hret
      split at hret <;> cases hret
      exact hpad
  · cases h
    cases hret
    exact hpad

theorem reads_no_pad :
    ∀ (sizes : List ℕ) {s : CodecSource Base64Encoder} {ended : Bool} {out beyond : List UInt8},
    CodecSource.reads codec sizes s = .ok (ended, out, beyond) → pad ∉ out
  | [], s, ended, out, beyond, h => by
    cases h
    exact List.not_mem_nil
  | n :: sizes, s, ended, out, beyond, h => by
    simp only [CodecSource.reads, bind_ok] at h
    obtain ⟨p, hp, h⟩ := h
    split at h
    · cases h
      exact List.not_mem_nil
    · next bytes hret =>
      obtain ⟨⟨ended', out', beyond'⟩, hreads, h⟩ := bind_ok.mp h
      cases h
      rw [List.mem_append, not_or]
      exact ⟨read_no_pad hp hret, reads_no_pad sizes hreads⟩

/-- Only whole groups are written without padding. -/
theorem pad_mem_standard : ∀ bytes : List UInt8, ¬3 ∣ bytes.length → pad ∈ Base64.standard bytes
  | [], h => absurd (Nat.dvd_zero 3) h
  | [a], _ => List.mem_append_right _ List.mem_cons_self
  | [a, b], _ => List.mem_append_right _ List.mem_cons_self
  | a :: b :: c :: bytes, h => by
    refine List.mem_append_right _ (pad_mem_standard bytes (fun hdvd => h ?_))
    simp only [List.length_cons]
    omega

theorem reads_group (a b c : UInt8) (bytes : List UInt8) (grants sizes : List ℕ) {e : Thrown}
    (h : CodecSource.reads codec sizes ⟨⟨bytes, grants⟩, ⟨0, 0⟩, [], 0⟩ = .error e) :
    CodecSource.reads codec (4 :: sizes) ⟨⟨a :: b :: c :: bytes, 3 :: grants⟩, ⟨0, 0⟩, [], 0⟩ =
      .error e := by
  have hread : CodecSource.read codec ⟨⟨a :: b :: c :: bytes, 3 :: grants⟩, ⟨0, 0⟩, [], 0⟩ 4 =
      .ok ⟨some (text .state0 [a, b, c]), [], ⟨⟨bytes, grants⟩, ⟨0, 0⟩, [], 0⟩⟩ := rfl
  simp only [CodecSource.reads, hread, ok_bind, h]
  rfl

/-- If the end of the source shows in a call that still writes, the next call throws. -/
theorem reads_last (a b c : UInt8) :
    CodecSource.reads codec [1, 1, 1, 1, 1] ⟨⟨[a, b, c], [3]⟩, ⟨0, 0⟩, [], 0⟩ =
      .error (.logic_error "illegal state") := by
  have h1 : CodecSource.read codec ⟨⟨[a, b, c], [3]⟩, ⟨0, 0⟩, [], 0⟩ 1 =
      .ok ⟨some [encode (a.toNat >>> 2)], [], ⟨⟨[], []⟩, ⟨1, a⟩, [a, b, c], 1⟩⟩ := rfl
  have h2 : CodecSource.read codec ⟨⟨[], []⟩, ⟨1, a⟩, [a, b, c], 1⟩ 1 =
      .ok ⟨some [encode (a.toNat <<< 4 &&& 0x3F ||| b.toNat >>> 4)], [],
        ⟨⟨[], []⟩, ⟨2, b⟩, [a, b, c], 2⟩⟩ := rfl
  have h3 : CodecSource.read codec ⟨⟨[], []⟩, ⟨2, b⟩, [a, b, c], 2⟩ 1 =
      .ok ⟨some [encode (b.toNat <<< 2 &&& 0x3F ||| c.toNat >>> 6)], [],
        ⟨⟨[], []⟩, ⟨3, c⟩, [a, b, c], 3⟩⟩ := rfl
  have h4 : CodecSource.read codec ⟨⟨[], []⟩, ⟨3, c⟩, [a, b, c], 3⟩ 1 =
      .ok ⟨some [encode (c.toNat &&& 0x3F)], [], ⟨⟨[], []⟩, ⟨6, c⟩, [], 0⟩⟩ := rfl
  have h5 : CodecSource.read codec ⟨⟨[], []⟩, ⟨6, c⟩, [], 0⟩ 1 =
    .error (.logic_error "illegal state") := rfl
  simp only [CodecSource.reads, h1, h2, h3, h4, h5, ok_bind]
  rfl

/-- On whole groups some calls come to that. -/
theorem reads_throw (k : ℕ) :
    ∀ bytes : List UInt8, bytes.length = 3 * (k + 1) → ∃ grants sizes : List ℕ,
    (∀ n ∈ sizes, 1 ≤ n) ∧
      CodecSource.reads codec sizes ⟨⟨bytes, grants⟩, ⟨0, 0⟩, [], 0⟩ =
        .error (.logic_error "illegal state") := by
  induction k with
  | zero =>
    intro bytes hlen
    obtain ⟨a, b, c, rfl⟩ := List.length_eq_three.mp hlen
    exact ⟨[3], [1, 1, 1, 1, 1], by simp, reads_last a b c⟩
  | succ k ih =>
    intro bytes hlen
    obtain _ | ⟨a, _ | ⟨b, _ | ⟨c, bytes⟩⟩⟩ := bytes
    · cases hlen
    · simp only [List.length_cons, List.length_nil] at hlen
      omega
    · simp only [List.length_cons, List.length_nil] at hlen
      omega
    · simp only [List.length_cons] at hlen
      obtain ⟨grants, sizes, hsizes, hthrow⟩ := ih bytes (by omega)
      exact ⟨3 :: grants, 4 :: sizes, List.forall_mem_cons.mpr ⟨by decide, hsizes⟩,
        reads_group a b c bytes grants sizes hthrow⟩

/-- Where there is nothing to encode there is nothing to return, and nothing to
    write behind the end. -/
theorem reads_nothing :
    ∀ (sizes grants : List ℕ), CodecSource.Within codec sizes ⟨⟨[], grants⟩, ⟨0, 0⟩, [], 0⟩ ∧
      ∃ ended,
    CodecSource.reads codec sizes ⟨⟨[], grants⟩, ⟨0, 0⟩, [], 0⟩ = .ok (ended, [], []) ∧
      (grants.length < sizes.length → ended = true)
  | [], grants => ⟨trivial, false, rfl, by simp⟩
  | n :: sizes, grants => by
    have hprocess : codec.process ⟨0, 0⟩ n [] = .ok ⟨true, [], [], ⟨0, 0⟩⟩ := by
      simp only [codec, process, run]
      rfl
    rcases hread : Source.read ⟨[], grants⟩ CodecSource.buffer_size with ⟨_ | got, source⟩
    · have hstep : CodecSource.read codec ⟨⟨[], grants⟩, ⟨0, 0⟩, [], 0⟩ n =
        .ok ⟨none, [], ⟨source, ⟨6, 0⟩, [], 0⟩⟩ := by
        simp only [CodecSource.read, List.length_nil, Nat.sub_zero, hread, Option.getD_none,
          List.append_nil, List.drop_nil, hprocess, ok_bind]
        rfl
      refine ⟨fun p bytes hp hret => ?_, true, ?_, fun _ => rfl⟩
      · obtain rfl := Except.ok.inj (hstep.symm.trans hp)
        cases hret
      · simp only [CodecSource.reads, hstep, ok_bind]
        rfl
    · obtain ⟨hrest, -, hgrants⟩ := Source.read_some hread
      obtain ⟨rfl, hnil⟩ := List.append_eq_nil_iff.mp hrest.symm
      obtain ⟨rest, tail⟩ := source
      subst hnil hgrants
      obtain ⟨hwithin, ended, hreads, hall⟩ := reads_nothing sizes grants.tail
      have hstep : CodecSource.read codec ⟨⟨[], grants⟩, ⟨0, 0⟩, [], 0⟩ n =
          .ok ⟨some [], [], ⟨⟨[], grants.tail⟩, ⟨0, 0⟩, [], 0⟩⟩ := by
        simp only [CodecSource.read, List.length_nil, Nat.sub_zero, hread, Option.getD_some,
          List.append_nil, List.drop_nil, hprocess, ok_bind]
        rfl
      refine ⟨fun p bytes hp hret => ?_, ended, ?_, fun hlt => ?_⟩
      · obtain rfl := Except.ok.inj (hstep.symm.trans hp)
        cases hret
        exact ⟨Nat.zero_le n, hwithin⟩
      · simp only [CodecSource.reads, hstep, hreads, ok_bind]
        rfl
      · -- With no script left the source would have reported its end.
        rcases grants with _ | ⟨g, grants⟩
        · cases hread
        · exact hall (by simpa using hlt)

theorem pullsAsPushed_iff (input : List UInt8) : PullsAsPushed codec input ↔ input = [] := by
  have hpush := Codec.transcode_total denotes (congrArg Except.ok (Base64.encoder_text input))
  constructor
  · intro h
    by_contra hne
    by_cases hdvd : 3 ∣ input.length
    · obtain ⟨k, hk⟩ := hdvd
      have hpos := List.length_pos_of_ne_nil hne
      obtain ⟨grants, sizes, hsizes, hthrow⟩ := reads_throw (k - 1) input (by omega)
      obtain ⟨-, ended, out, hreads, -⟩ := h _ _ hpush grants sizes hsizes
      cases hthrow.symm.trans hreads
    · obtain ⟨-, ended, out, hreads, -, hdone, hall⟩ :=
        h _ _ hpush []
          (List.replicate (2 * input.length + (Base64.standard input).length + 1) 1) (by simp)
      have hended := hall (by simp)
      rw [hdone hended] at hreads
      exact reads_no_pad _ hreads (pad_mem_standard input hdvd)
  · rintro rfl rounds text htext grants sizes hsizes
    obtain ⟨hwithin, ended, hreads, hall⟩ := reads_nothing sizes grants
    obtain rfl : text = [] := (Except.ok.inj (Codec.transcode_sound denotes htext)).symm
    exact ⟨hwithin, ended, [], hreads, List.nil_prefix, fun _ => rfl,
      fun hlt => hall (by simpa using hlt)⟩

end Base64Encoder

/-- The instances of `CodecSource`. -/
inductive CodecClass where | base64Encoder | base64Decoder | hexEncoder | hexDecoder
  deriving DecidableEq, Repr

def CodecClass.PullsAsPushed : CodecClass → List UInt8 → Prop
  | .base64Encoder => Common.PullsAsPushed Base64Encoder.codec
  | .base64Decoder => Common.PullsAsPushed Base64Decoder.codec
  | .hexEncoder => Common.PullsAsPushed HexEncoder.codec
  | .hexDecoder => Common.PullsAsPushed HexDecoder.codec

/-- Pulling gives what pushing gives for every codec and input, but for the base64 encoder on
    anything to encode. -/
theorem pulled_iff (k : CodecClass) (input : List UInt8) :
    k.PullsAsPushed input ↔ k ≠ .base64Encoder ∨ input = [] := by
  cases k with
  | base64Encoder => exact (Base64Encoder.pullsAsPushed_iff input).trans (by simp)
  | base64Decoder =>
    exact iff_of_true (pulls_of_quiet Base64Decoder.denotes Base64Decoder.quiet input)
      (.inl (by decide))
  | hexEncoder =>
    exact iff_of_true (pulls_of_quiet HexEncoder.denotes HexEncoder.quiet input)
      (.inl (by decide))
  | hexDecoder =>
    exact iff_of_true (pulls_of_quiet HexDecoder.denotes HexDecoder.quiet input)
      (.inl (by decide))

/-- One byte: the reads return one digit of its text, and the other and the padding
    land behind the buffer. -/
theorem pulled_one_byte :
    CodecSource.reads Base64Encoder.codec [4, 4] (.init Base64Encoder.codec ⟨[1], []⟩) =
      .ok (true, [65], [81, 61, 61]) ∧
    Codec.transcode Base64Encoder.codec 1 [1] = some (.ok [65, 81, 61, 61]) ∧
      ¬CodecClass.PullsAsPushed .base64Encoder [1] := by
  have hreads : CodecSource.reads Base64Encoder.codec [4, 4] (.init Base64Encoder.codec ⟨[1], []⟩) =
      .ok (true, [65], [81, 61, 61]) := rfl
  have hpush : Codec.transcode Base64Encoder.codec 1 [1] = some (.ok [65, 81, 61, 61]) := rfl
  refine ⟨hreads, hpush, fun h => ?_⟩
  obtain ⟨-, ended, out, hreads', -⟩ := h 1 _ hpush [] [4, 4] (by decide)
  cases hreads.symm.trans hreads'

end Matching.Common
