import Matching.Common.Io
import Matching.Lib.Pattern

/-! `DelimitedSource` stops at the first delimiter for just those delimiters where falling back to
    the first or second place is all that a mismatch can call for. What was read is what the
    position in the delimiter was computed from, and the position is the longest beginning of the
    delimiter read last. -/

namespace Matching.Common

namespace DelimitedSource

variable {D xs ys r : List UInt8} {s s' t : DelimitedSource} {n q b fuel : ℕ}
  {res : Option (List UInt8)}

/-- `delim_itr` after some bytes. -/
def place (D : List UInt8) (q : ℕ) (bytes : List UInt8) : ℕ := bytes.foldl (advance D) q

theorem advance_le (D : List UInt8) (q : ℕ) (c : UInt8) : advance D q c ≤ q + 1 := by
  rw [advance]
  split
  · exact le_rfl
  · split <;> omega

theorem place_le (D : List UInt8) :
    ∀ (q : ℕ) (bytes : List UInt8), place D q bytes ≤ q + bytes.length
  | q, [] => le_rfl
  | q, c :: cs => by
    have hrec := place_le D (advance D q c) cs
    have hstep := advance_le D q c
    rw [place, List.foldl_cons, List.length_cons]
    rw [place] at hrec
    omega

theorem place_append (D : List UInt8) (q : ℕ) (xs ys : List UInt8) :
    place D q (xs ++ ys) = place D (place D q xs) ys :=
  List.foldl_append

/-- `s'` has read `bytes` more than `s`, and stood before the end of the delimiter
    until the last of them. -/
structure Moved (s : DelimitedSource) (bytes : List UInt8) (s' : DelimitedSource) : Prop where
  delimiter : s'.delimiter = s.delimiter
  read : s.source.rest = bytes ++ s'.source.rest
  place : s'.delim_itr = place s.delimiter s.delim_itr bytes
  inside : ∀ begun, begun <+: bytes → begun ≠ bytes →
    DelimitedSource.place s.delimiter s.delim_itr begun < s.delimiter.length
  grants : s'.source.grants <:+ s.source.grants

theorem Moved.refl (s : DelimitedSource) : s.Moved [] s where
  delimiter := rfl
  read := rfl
  place := rfl
  inside := fun _ hpre hne => absurd (List.prefix_nil.mp hpre) hne
  grants := List.suffix_rfl

theorem Moved.trans (h : s.Moved xs t) (h' : t.Moved ys s') : s.Moved (xs ++ ys) s' where
  delimiter := h'.delimiter.trans h.delimiter
  read := by rw [h.read, h'.read, List.append_assoc]
  place := by rw [h'.place, h.delimiter, h.place, place_append]
  inside := by
    intro begun hpre hne
    rcases List.prefix_or_prefix_of_prefix hpre (List.prefix_append xs ys) with hshort | ⟨zs, rfl⟩
    · by_cases heq : begun = xs
      · subst heq
        have hys : [] ≠ ys := by
          rintro rfl
          exact hne (List.append_nil _).symm
        have hlt := h'.inside [] List.nil_prefix hys
        rwa [h.delimiter, h.place] at hlt
      · exact h.inside begun hshort heq
    · have hlt :=
        h'.inside zs ((List.prefix_append_right_inj xs).mp hpre) (by rintro rfl; exact hne rfl)
      rwa [h.delimiter, h.place, ← place_append] at hlt
  grants := h'.grants.trans h.grants

/-- A read of the source that asks for no more than is left of the delimiter. -/
theorem Moved.of_read {source : Source} {bytes : List UInt8}
    (hread : s.source.read n = (some bytes, source)) (hn : n ≤ s.delimiter.length - s.delim_itr)
    (hpos : s.delim_itr < s.delimiter.length) :
    s.Moved bytes { s with
      source, delim_itr := DelimitedSource.place s.delimiter s.delim_itr bytes } := by
  obtain ⟨hrest, hlen, hgrants⟩ := Source.read_some hread
  refine ⟨rfl, hrest, rfl, ?_, hgrants ▸ List.tail_suffix _⟩
  intro pre hpre hne
  have hshort : pre.length < bytes.length :=
    lt_of_le_of_ne hpre.length_le (fun heq => hne (hpre.eq_of_length heq))
  have hplace := place_le s.delimiter s.delim_itr pre
  omega

theorem orEnd_cases (r : List UInt8) :
    orEnd r ≠ some [] ∧ (orEnd r = some r ∨ orEnd r = none ∧ r = []) := by
  rw [orEnd]
  split
  · next hr => exact ⟨by simp, .inr ⟨rfl, hr⟩⟩
  · next hr => exact ⟨fun heq => hr (Option.some.inj heq), .inl rfl⟩

/-- What a read returns, from `s` to `s'`: the bytes it has moved by, or the end, which is
    reported behind the delimiter or the data. It returns no bytes only if none were asked
    for or the source gave none. -/
structure Returns (s : DelimitedSource) (n : ℕ) (r : List UInt8) (res : Option (List UInt8))
    (s' : DelimitedSource) (bytes : List UInt8) : Prop where
  moved : s.Moved bytes s'
  result : res = some (r ++ bytes) ∨
    res = none ∧ r ++ bytes = [] ∧ (s'.delimiter.length ≤ s'.delim_itr ∨ s'.source.rest = [])
  gives : 0 < n → 0 ∉ s.source.grants → res ≠ some []

/-- The loop stops without another byte, at the end of the delimiter or of the source. -/
theorem Returns.stop (hmoved : s.Moved [] s')
    (hend : s'.delimiter.length ≤ s'.delim_itr ∨ s'.source.rest = []) :
    s.Returns n r (orEnd r) s' [] := by
  obtain ⟨hne, hcases⟩ := orEnd_cases r
  refine ⟨hmoved, ?_, fun _ _ => hne⟩
  rw [List.append_nil]
  rcases hcases with heq | ⟨heq, hr⟩
  · exact .inl heq
  · exact .inr ⟨heq, hr, hend⟩

theorem readLoop_returns :
    ∀ (fuel : ℕ) {s s' : DelimitedSource} {n : ℕ} {r : List UInt8} {res : Option (List UInt8)},
    n ≤ fuel → readLoop fuel s n r = (res, s') → ∃ bytes, s.Returns n r res s' bytes
  | 0, s, s', n, r, res, hn, h => by
    cases h
    exact ⟨[], Moved.refl s, .inl (by rw [List.append_nil]), fun hpos => by omega⟩
  | fuel + 1, s, s', n, r, res, hn, h => by
    rw [readLoop] at h
    split at h
    · cases h
      exact ⟨[], Moved.refl s, .inl (by rw [List.append_nil]), fun hpos => by omega⟩
    split at h
    · cases h
      exact ⟨[], .stop (Moved.refl s) (.inl (by omega))⟩
    split at h
    · next source hread =>
      cases h
      obtain ⟨hrest, hrest', hgrants⟩ := Source.read_none hread
      exact ⟨[],
        .stop ⟨rfl, by rw [hrest, hrest']; rfl, rfl, (Moved.refl s).inside,
        hgrants ▸ List.tail_suffix _⟩ (.inr hrest')⟩
    · next source hread =>
      cases h
      refine ⟨[], Moved.of_read hread (min_le_left _ _) (by omega),
        .inl (by rw [List.append_nil]), ?_⟩
      intro _ hgrants
      exact absurd rfl (Source.read_ne_nil hread (by omega) hgrants)
    · next b bs source hread =>
      have hmoved := Moved.of_read hread (min_le_left _ _) (by omega)
      have hlen := (Source.read_some hread).2.1
      rw [List.length_cons] at hlen h
      obtain ⟨bytes, hrec⟩ := readLoop_returns fuel (by omega) h
      refine ⟨b :: bs ++ bytes, hmoved.trans hrec.moved, ?_, ?_⟩
      · have hresult := hrec.result
        rwa [List.append_assoc] at hresult
      · intro _ _ hnil
        rcases hrec.result with hres | ⟨hres, -, -⟩
        · rw [hnil] at hres
          simp at hres
        · rw [hnil] at hres
          cases hres

/-! ### Runs -/

/-- Successive reads until one reports the end: the bytes returned, whether the end was reported,
    and the source after them. -/
def reads : DelimitedSource → List ℕ → List UInt8 × Bool × DelimitedSource
  | s, [] => ([], false, s)
  | s, n :: sizes =>
    match s.read n with
    | (none, s) => ([], true, s)
    | (some bytes, s) =>
      let (out, ended, s) := reads s sizes
      (bytes ++ out, ended, s)

theorem reads_moved :
    ∀ (sizes : List ℕ) (s : DelimitedSource), s.Moved (s.reads sizes).1 (s.reads sizes).2.2 ∧
    ((s.reads sizes).2.1 = true →
      (s.reads sizes).2.2.delimiter.length ≤ (s.reads sizes).2.2.delim_itr ∨
        (s.reads sizes).2.2.source.rest = [])
  | [], s => ⟨Moved.refl s, by simp [reads]⟩
  | n :: sizes, s => by
    rcases hread : s.read n with ⟨res, s'⟩
    obtain ⟨bytes, hret⟩ := readLoop_returns n le_rfl hread
    simp only [reads, hread]
    rcases hret.result with rfl | ⟨rfl, hbytes, hend⟩
    · obtain ⟨hrec, hend⟩ := reads_moved sizes s'
      exact ⟨hret.moved.trans hrec, hend⟩
    · obtain rfl : bytes = [] := by simpa using hbytes
      exact ⟨hret.moved, fun _ => hend⟩

/-- Every read returns something while the source does, so that the end is reached. -/
theorem reads_ends : ∀ (sizes : List ℕ) (s : DelimitedSource), 0 ∉ sizes → 0 ∉ s.source.grants →
    s.source.rest.length < sizes.length → (s.reads sizes).2.1 = true
  | [], _, _, _, h => by simp at h
  | n :: sizes, s, hsizes, hgrants, h => by
    simp only [List.mem_cons, not_or] at hsizes
    rcases hread : s.read n with ⟨res, s'⟩
    obtain ⟨bytes, hret⟩ := readLoop_returns n le_rfl hread
    simp only [reads, hread]
    rcases hret.result with rfl | ⟨rfl, -, -⟩
    · have hne := hret.gives (by omega) hgrants
      have hpos : 0 < bytes.length := List.length_pos_iff.mpr (fun hnil => hne (by rw [hnil]; rfl))
      have hrest := congrArg List.length hret.moved.read
      rw [List.length_append] at hrest
      rw [List.length_cons] at h
      exact reads_ends sizes s' hsizes.2
        (fun hmem => hgrants (hret.moved.grants.mem hmem)) (by omega)
    · rfl

/-! ### The first occurrence -/

/-- The longest beginning of the delimiter is known as long as the delimiter
    has not been read whole. -/
theorem place_longest (hD : Separated D) : ∀ (xs : List UInt8),
    (∀ pre, pre <+: xs → pre ≠ xs → place D 0 pre < D.length) → Longest D xs (place D 0 xs) := by
  intro xs
  induction xs using List.reverseRecOn with
  | nil => exact fun _ => Longest.nil D
  | append_singleton xs c ih =>
    intro hinside
    have hlt := hinside xs (List.prefix_append xs [c]) (by simp)
    have hlong := ih fun pre hpre hne => hinside pre (hpre.trans (List.prefix_append xs [c])) <| by
      rintro rfl
      have hlen := hpre.length_le
      simp at hlen
    rw [place_append]
    change Longest D (xs ++ [c]) (advance D (place D 0 xs) c)
    rw [advance]
    split
    · next hc => exact hlong.extend hc
    · next hc => exact hlong.restart hD hlt hc

/-! ### Delimiters the fallback is not enough for -/

theorem place_take (D : List UInt8) : ∀ q ≤ D.length, place D 0 (D.take q) = q
  | 0, _ => by rw [List.take_zero]; rfl
  | q + 1, h => by
    have hget : D[q]? = some D[q] := List.getElem?_eq_getElem h
    rw [take_succ_of_getElem? hget, place_append, place_take D q (by omega)]
    change advance D q D[q] = q + 1
    rw [advance, if_pos hget]

/-- A beginning of the delimiter comes back at the end of a partial match, and the delimiter goes on
    after it: the position falls behind and does not reach the end. -/
theorem place_missed (hb : 1 ≤ b) (hbq : b < q) (hq : q < D.length) (hne : D[b]? ≠ D[q]?)
    (xs : List UInt8) (hxs : xs <+: D.take q ++ D.drop b) : place D 0 xs < D.length := by
  have htake : (D.take q).length = q := List.length_take_of_le hq.le
  rcases List.prefix_or_prefix_of_prefix hxs (List.prefix_append _ _) with hshort | ⟨ys, rfl⟩
  · have hplace := place_le D 0 xs
    have hlen := hshort.length_le
    omega
  · have hget : D[b]? = some D[b] := List.getElem?_eq_getElem (hbq.trans hq)
    have hys := (List.prefix_append_right_inj (D.take q)).mp hxs
    rw [List.drop_eq_getElem_cons (hbq.trans hq)] at hys
    rw [place_append, place_take D q hq.le]
    rcases List.prefix_cons_iff.mp hys with rfl | ⟨zs, rfl, hzs⟩
    · exact hq
    · have hstep : advance D q D[b] ≤ 1 := by
        rw [advance, if_neg (fun heq => hne (hget.trans heq.symm))]
        split <;> omega
      have hplace := place_le D (advance D q D[b]) zs
      have hlen := hzs.length_le
      rw [List.length_drop] at hlen
      change place D (advance D q D[b]) zs < D.length
      omega

end DelimitedSource

/-- What was read of a stream up to a delimiter: nothing behind the first occurrence is taken from
    the source; when the end is reported the bytes returned are the stream up to there; and it is
    reported, once there were more reads than bytes, none of them for no bytes and none of which the
    source gave nothing for. -/
structure StopsAtFirst (delimiter stream : List UInt8) (grants sizes : List ℕ) : Prop where
  taken : ∀ pre, pre <+: stream → delimiter <:+ pre →
    stream.drop pre.length <:+
      ((DelimitedSource.init ⟨stream, grants⟩ delimiter).reads sizes).2.2.source.rest
  stops : ((DelimitedSource.init ⟨stream, grants⟩ delimiter).reads sizes).2.1 = true →
    UpToFirst delimiter stream ((DelimitedSource.init ⟨stream, grants⟩ delimiter).reads sizes).1
  ends : 0 ∉ sizes → 0 ∉ grants → stream.length < sizes.length →
    ((DelimitedSource.init ⟨stream, grants⟩ delimiter).reads sizes).2.1 = true

namespace StopsAtFirst

variable {delimiter : List UInt8}

/-- A stream that ends with the delimiter and one byte more is read to its end, where a position
    that fell behind cannot catch up. -/
theorem separated (h : ∀ stream grants sizes, StopsAtFirst delimiter stream grants sizes) :
    Separated delimiter := by
  intro q hq b hbq hb hborder
  by_contra hget
  obtain ⟨w, hw⟩ : ∃ w, w = delimiter.take q ++ delimiter.drop b := ⟨_, rfl⟩
  have hends : delimiter <:+ w := by
    obtain ⟨t, ht⟩ := hborder
    exact ⟨t, by rw [hw, ← ht, List.append_assoc, List.take_append_drop]⟩
  have hrun := h (w ++ [0]) [] (List.replicate (w.length + 2) 1)
  have hend := hrun.ends (by simp) (by simp) (by simp)
  obtain ⟨hmoved, hwhy⟩ := DelimitedSource.reads_moved (List.replicate (w.length + 2) 1)
    (DelimitedSource.init ⟨w ++ [0], []⟩ delimiter)
  have hshort := (hrun.stops hend).first w (List.prefix_append w [0]) hends
  have hstart :=
    List.prefix_of_prefix_length_le (hrun.stops hend).start (List.prefix_append w [0]) hshort
  rcases hwhy hend with hwhole | hall
  · rw [hmoved.delimiter, hmoved.place] at hwhole
    refine absurd hwhole (not_le.mpr (DelimitedSource.place_missed hb hbq hq hget _ ?_))
    rwa [← hw]
  · have hlen : (w ++ [0]).length = _ := congrArg List.length hmoved.read
    rw [hall, List.append_nil, List.length_append, List.length_singleton] at hlen
    omega

/-- Nothing is read behind an occurrence. -/
theorem first (hD : Separated delimiter) (stream : List UInt8) (grants sizes : List ℕ)
    {pre : List UInt8} (hpre : pre <+: stream) (hends : delimiter <:+ pre) :
    ((DelimitedSource.init ⟨stream, grants⟩ delimiter).reads sizes).1.length ≤ pre.length := by
  obtain ⟨hmoved, -⟩ :=
    DelimitedSource.reads_moved sizes (DelimitedSource.init ⟨stream, grants⟩ delimiter)
  have hread : stream = _ ++ _ := hmoved.read
  by_contra hlt
  have hshort := List.prefix_of_prefix_length_le hpre ⟨_, hread.symm⟩ (Nat.le_of_not_le hlt)
  have hinside := hmoved.inside pre hshort (by rintro rfl; exact hlt le_rfl)
  have hlong := DelimitedSource.place_longest hD pre fun begun hbegun hne =>
    hmoved.inside begun (hbegun.trans hshort)
      (by rintro rfl; exact hne (hbegun.eq_of_length_le hshort.length_le))
  exact hinside.ne (hlong.whole.mp hends)

theorem of_separated (hD : Separated delimiter) (stream : List UInt8) (grants sizes : List ℕ) :
    StopsAtFirst delimiter stream grants sizes := by
  obtain ⟨hmoved, hwhy⟩ :=
    DelimitedSource.reads_moved sizes (DelimitedSource.init ⟨stream, grants⟩ delimiter)
  have hread : stream = _ ++ _ := hmoved.read
  refine ⟨?_, ?_, ?_⟩
  · intro pre hpre hends
    have hle := first hD stream grants sizes hpre hends
    have hdrop := congrArg (List.drop pre.length) hread
    rw [List.drop_append, List.drop_eq_nil_of_le hle, List.nil_append] at hdrop
    rw [hdrop]
    exact List.drop_suffix _ _
  · intro hend
    refine ⟨⟨_, hread.symm⟩, ?_, fun pre => first hD stream grants sizes⟩
    rcases hwhy hend with hwhole | hall
    · have hlong := DelimitedSource.place_longest hD _ hmoved.inside
      rw [hmoved.delimiter, hmoved.place] at hwhole
      exact .inl (hlong.whole.mpr (le_antisymm hlong.le hwhole))
    · rw [hall, List.append_nil] at hread
      exact .inr hread.symm
  · exact DelimitedSource.reads_ends sizes (DelimitedSource.init ⟨stream, grants⟩ delimiter)

end StopsAtFirst

/-- `DelimitedSource` stops at the first delimiter, in every stream, however it is cut and
    read, if and only if no beginning of the delimiter but its first byte has to be kept
    where a partial match fails. -/
theorem delimited_source (delimiter : List UInt8) (_ : delimiter ≠ []) :
    (∀ stream grants sizes, StopsAtFirst delimiter stream grants sizes) ↔ Separated delimiter :=
  ⟨StopsAtFirst.separated, StopsAtFirst.of_separated⟩

/-- The end of an HTTP header is found. -/
theorem delimited_source_header : Separated ([13, 10, 13, 10] : List UInt8) ∧
    ∀ stream grants sizes, StopsAtFirst [13, 10, 13, 10] stream grants sizes :=
  ⟨by decide, (delimited_source [13, 10, 13, 10] (by decide)).mpr (by decide)⟩

/-- In "aaabc" the delimiter "aab" is not seen, and the byte behind it is taken. -/
theorem delimited_source_misses : ¬ StopsAtFirst [97, 97, 98] [97, 97, 97, 98, 99] [] [8, 8] := by
  intro h
  have hlen := (h.stops (by decide +kernel)).first [97, 97, 97, 98] ⟨[99], rfl⟩ ⟨[97], rfl⟩
  revert hlen
  decide +kernel

end Matching.Common
