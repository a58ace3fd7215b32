import Flipbook.Proofs.Machine.Guarded
import Flipbook.Proofs.Machine.RoundTrip

/-!
# Proofs/Machine/Truncation — where the bytes of a resource end

A read says nothing but what the bytes it moves over say (`Read.Local`), and loading reads nothing
behind the end of the byte code, which the header tells.  So bytes that agree up to there load alike
(`LoadedFrom.congr`), while bytes that end before are refused, by the header, by the variable list
or by the byte code, whichever is cut first (`load_of_cut`).
-/

namespace Flipbook.Machine

/-! ## Reads -/

namespace Read

variable {α β : Type}

/-- Whether a read that succeeds is told by the next `size` bytes: it gives the same wherever they
stand at its position. -/
def Local (read : Read α) (size : Nat) : Prop :=
  ∀ bytes position value c, read.run ⟨bytes, position⟩ = (.ok value, c) →
    ∃ bs, bs <+: bytes.toList.drop position ∧ bs.length = size ∧ Reads read position bs value

namespace Local

variable {x : Read α} {f : α → Read β} {m n : Nat}

theorem pure (a : α) : Local (pure a) 0 := by
  intro bytes position value c h
  obtain ⟨rfl, -⟩ := run_pure_eq_ok.1 h
  exact ⟨[], List.nil_prefix, rfl, .pure a position⟩

theorem bind (hx : Local x m) (hf : ∀ a, Local (f a) n) : Local (x >>= f) (m + n) := by
  intro bytes position value c h
  obtain ⟨a, c₁, hfirst, hsecond⟩ := run_bind_eq_ok.1 h
  obtain ⟨bs, ⟨later, hlater⟩, rfl, hreads⟩ := hx _ _ _ _ hfirst
  have hmoved := (hreads bytes ⟨later, hlater⟩).symm.trans hfirst
  obtain rfl : (⟨bytes, position + bs.length⟩ : Cursor) = c₁ := congrArg Prod.snd hmoved
  obtain ⟨bs', hbs', rfl, hreads'⟩ := hf a _ _ _ _ hsecond
  rw [← List.drop_drop, ← hlater, List.drop_left] at hbs'
  refine ⟨bs ++ bs', ?_, List.length_append, hreads.bind hreads'⟩
  rw [← hlater]
  exact (List.prefix_append_right_inj bs).2 hbs'

theorem map (g : α → β) (hx : Local x n) : Local (g <$> x) n := by
  intro bytes position value c h
  obtain ⟨a, ha, rfl⟩ := run_map_eq_ok.1 h
  obtain ⟨bs, hbs, hlen, hreads⟩ := hx _ _ _ _ ha
  exact ⟨bs, hbs, hlen, hreads.map g⟩

theorem number {count : Nat} (hcount : 0 < count) : Local (number count) count := by
  intro bytes position value c h
  obtain ⟨hroom, rfl, -⟩ := run_number_eq_ok.1 h
  have hlen : ((bytes.toList.drop position).take count).length = count := by
    rw [List.length_take, List.length_drop, Array.length_toList]
    exact Nat.min_eq_left (Nat.le_sub_of_add_le' hroom)
  refine ⟨_, List.take_prefix _ _, hlen, fun bytes' h' => run_number_eq_ok.2 ⟨?_, ?_, ?_⟩⟩
  · have hle := h'.length_le
    rw [hlen, List.length_drop, Array.length_toList] at hle
    show position + count ≤ bytes'.size
    omega
  · have htake := List.prefix_iff_eq_take.1 h'
    rw [hlen] at htake
    rw [htake]
  · rw [hlen]

theorem word : Local word 4 := (number (by decide)).map _

theorem single : Local single 4 := word.map _

theorem times (hx : Local x n) (count : Nat) : Local (times count x) (count * n) := by
  induction count with
  | zero =>
    rw [Nat.zero_mul]
    exact pure []
  | succ count ih =>
    have hnext : Local (Read.times (count + 1) x) (n + (count * n + 0)) :=
      hx.bind fun first => ih.bind fun rest => pure (first :: rest)
    have hsize : n + (count * n + 0) = (count + 1) * n := by rw [Nat.succ_mul, Nat.add_comm n]; rfl
    rwa [hsize] at hnext

theorem header : Local header Layout.headerSize :=
  word.bind (n := 20) fun _ => word.bind (n := 16) fun _ => word.bind (n := 12) fun _ =>
    word.bind (n := 8) fun _ => word.bind (n := 4) fun _ => word.bind (n := 0) fun _ => pure _

/-- The variable list is told by its names and values. -/
theorem vars (count : Nat) : Local (Read.variables count) (count * 8) := by
  have hlist : Local (Read.variables count) (count * 4 + (count * 4 + 0)) :=
    (word.times count).bind fun _ => (single.times count).bind fun _ => pure _
  have hsize : count * 4 + (count * 4 + 0) = count * 8 := by omega
  rwa [hsize] at hlist

/-- **A read gives the same on bytes that agree up to where it ends.** -/
theorem result_eq_ok {bytes bytes' : Blob} {position stop : Nat} {value : α} (hx : Local x n)
    (h : x.result bytes position = .ok value)
    (hsame : bytes'.toList.take stop = bytes.toList.take stop) (hstop : position + n ≤ stop) :
    x.result bytes' position = .ok value := by
  obtain ⟨c, hc⟩ := Read.result_eq_ok.1 h
  obtain ⟨bs, hbs, rfl, hreads⟩ := hx _ _ _ _ hc
  refine Read.result_eq_ok.2 ⟨_, hreads bytes' ?_⟩
  have htake : (bytes'.toList.drop position).take bs.length
      = (bytes.toList.drop position).take bs.length := by
    have hpart : ∀ cs : List UInt8, (cs.drop position).take bs.length
        = ((cs.take stop).drop position).take bs.length := by
      intro cs
      rw [List.drop_take, List.take_take, Nat.min_eq_left (Nat.le_sub_of_add_le' hstop)]
    rw [hpart, hsame, ← hpart]
  rw [List.prefix_iff_eq_take.1 hbs, ← htake]
  exact List.take_prefix _ _

end Local

/-! ### Headers that are cut -/

/-- Whether a read fails at the word that `size` bytes cut. -/
def CutAt (size : Nat) (read : Read α) (position : Nat) : Prop :=
  ∀ bytes : Blob, bytes.size = size →
    (read.run ⟨bytes, position⟩).1 = .error (.truncated (size / 4 * 4) 4)

/-- A word is cut if it is the one where the bytes end; otherwise a later one is. -/
theorem CutAt.word_bind {size i : Nat} {f : UInt32 → Read α} (hi : i * 4 ≤ size)
    (hf : ∀ w, (i + 1) * 4 ≤ size → CutAt size (f w) ((i + 1) * 4)) :
    CutAt size (word >>= f) (i * 4) := by
  rintro bytes rfl
  rw [run_bind]
  by_cases hroom : i * 4 + 4 ≤ bytes.size
  · have hword : word.run ⟨bytes, i * 4⟩
        = (.ok (UInt32.ofNat (ofLittleEndian ((bytes.toList.drop (i * 4)).take 4))),
          ⟨bytes, i * 4 + 4⟩) :=
      run_map_eq_ok.2 ⟨_, run_number_eq_ok.2 ⟨hroom, rfl, rfl⟩, rfl⟩
    rw [hword, ← Nat.succ_mul]
    exact hf _ (by omega) bytes rfl
  · have hword : word.run ⟨bytes, i * 4⟩ = (.error (.truncated (i * 4) 4), ⟨bytes, i * 4⟩) := by
      show (UInt32.ofNat <$> number 4 : Read UInt32).run _ = _
      rw [run_map, run_number_of_lt (Nat.not_le.1 hroom)]
      rfl
    have hquot : bytes.size / 4 = i := by omega
    rw [hword, hquot]

/-- A header whose bytes are not all there fails at the word that is cut. -/
theorem cutAt_header {size : Nat} (h : size < Layout.headerSize) : CutAt size header 0 := by
  refine CutAt.word_bind (i := 0) (Nat.zero_le _) fun _ h₁ => ?_
  refine CutAt.word_bind (i := 1) h₁ fun _ h₂ => ?_
  refine CutAt.word_bind (i := 2) h₂ fun _ h₃ => ?_
  refine CutAt.word_bind (i := 3) h₃ fun _ h₄ => ?_
  refine CutAt.word_bind (i := 4) h₄ fun _ h₅ => ?_
  refine CutAt.word_bind (i := 5) h₅ fun _ h₆ => ?_
  exact absurd h (Nat.not_lt.2 h₆)

end Read

/-! ## The end of the byte code -/

namespace Header

/-- The place behind the variable list. -/
def variableEnd (h : Header) : Nat := h.variableListOffset.toNat + h.variableCount.toNat * 8

/-- The place behind the byte code. -/
def stop (h : Header) : Nat := h.byteCodeOffset.toNat + h.byteCodeSize.toNat * 4

/-- What is wrong with the first `size` bytes of a resource: the header is not all there, or the
variable list, or the byte code. -/
def truncation (h : Header) (size : Nat) : LoadError :=
  if size < Layout.headerSize then .truncated (size / 4 * 4) 4
  else if size < h.variableEnd then .outOfBounds .variableList h.variableListOffset.toNat
  else .outOfBounds .byteCode h.byteCodeOffset.toNat

end Header

variable {bytes bytes' : Blob} {r : Resource}

/-- **Bytes that agree up to the end of the byte code load alike.** -/
theorem LoadedFrom.congr {stored : List StoredState} {raw : List UInt32}
    (h : LoadedFrom bytes stored raw r)
    (hsame : bytes'.toList.take r.header.stop = bytes.toList.take r.header.stop) :
    LoadedFrom bytes' stored raw { r with size := bytes'.size } := by
  have hcode := h.codeEnd
  have hvariables := h.behindVariables
  have hheader := h.behindHeader
  have hstop : r.header.stop ≤ bytes'.size := by
    have hlen := congrArg List.length hsame
    rw [List.length_take, List.length_take, Array.length_toList, Array.length_toList] at hlen
    simp only [Header.stop] at *
    omega
  have hregion : stateRegion bytes' r.header = stateRegion bytes r.header := by
    have hle : r.header.variableListOffset.toNat ≤ r.header.stop := by
      simp only [Header.stop]
      omega
    have htake := congrArg (List.take r.header.variableListOffset.toNat) hsame
    rw [List.take_take, List.take_take, Nat.min_eq_left hle] at htake
    refine Array.toList_inj.1 ?_
    simpa [stateRegion, List.extract_eq_take_drop] using htake
  exact
    { h with
      size := rfl
      header := Read.Local.header.result_eq_ok h.header hsame (by
        simp only [Header.stop]
        omega)
      variableEnd := by
        simp only [Header.stop] at hstop
        show r.header.variableListOffset.toNat + r.header.variableCount.toNat * 8 ≤ bytes'.size
        omega
      codeEnd := hstop
      records := by
        rw [hregion]
        exact h.records
      vars := (Read.Local.vars _).result_eq_ok h.vars hsame (by
        simp only [Header.stop]
        omega)
      code := (Read.Local.word.times _).result_eq_ok h.code hsame (Nat.le_refl _) }

/-- The resource of some bytes is that of all bytes that agree up to the end of the byte code. -/
theorem load_of_take_eq (h : load bytes = .ok r)
    (hsame : bytes'.toList.take r.header.stop = bytes.toList.take r.header.stop) :
    load bytes' = .ok { r with size := bytes'.size } := by
  obtain ⟨stored, raw, hloaded⟩ := load_eq_ok.1 h
  exact load_eq_ok.2 ⟨stored, raw, hloaded.congr hsame⟩

/-- **The first bytes of a resource are refused as long as its byte code does not end among them**,
whatever follows its header. -/
theorem load_of_cut {header : Header} (hheader : Read.header.result bytes 0 = .ok header)
    (hversion : header.version.toNat = Layout.version) {n : Nat} (hn : n < header.stop)
    (hsize : n ≤ bytes.size) : load (bytes.take n) = .error (header.truncation n) := by
  have hcut : (bytes.take n).size = n := by simpa using hsize
  rw [load]
  by_cases hshort : n < Layout.headerSize
  · have herror : Read.header.result (bytes.take n) 0 = .error (.truncated (n / 4 * 4) 4) :=
      Read.cutAt_header hshort _ hcut
    rw [Header.truncation, if_pos hshort]
    exact bind_of_error herror _
  have hsame : (bytes.take n).toList.take Layout.headerSize
      = bytes.toList.take Layout.headerSize := by
    simp [List.take_take, Nat.min_eq_left (Nat.le_of_not_lt hshort)]
  have hheader' := Read.Local.header.result_eq_ok hheader hsame (Nat.le_refl _)
  rw [Header.truncation, if_neg hshort]
  refine (bind_of_ok hheader' _).trans ?_
  refine (bind_of_ok (a := ()) (ensure_eq_ok.2 (decide_eq_true hversion)) _).trans ?_
  by_cases hvariables : n < header.variableEnd
  · rw [if_pos hvariables]
    exact bind_of_error (if_neg (Nat.not_le.2 (hcut.trans_lt hvariables))) _
  · rw [if_neg hvariables]
    have hregion : regionEnd (bytes.take n) .variableList header.variableListOffset.toNat
        header.variableCount.toNat 8 = .ok header.variableEnd :=
      regionEnd_eq_ok.2 ⟨rfl, hcut.symm ▸ Nat.le_of_not_lt hvariables⟩
    refine (bind_of_ok hregion _).trans ?_
    exact bind_of_error (if_neg (Nat.not_le.2 (hcut.trans_lt hn))) _

/-! ## Cut and extended resources -/

/-- Whether the end of the byte code is where the bytes of a resource end: fewer bytes are refused,
and further bytes mean nothing. -/
structure Resource.EndsWithByteCode (bytes : Blob) (r : Resource) : Prop where
  /-- Fewer bytes are refused. -/
  refused : ∀ n < r.header.stop, load (bytes.take n) = .error (r.header.truncation n)
  /-- As many bytes are enough. -/
  enough : ∀ n, r.header.stop ≤ n →
    load (bytes.take n) = .ok { r with size := min n bytes.size }
  /-- More bytes change nothing. -/
  extended : ∀ more : Blob, load (bytes ++ more) = .ok { r with size := bytes.size + more.size }

theorem endsWithByteCode_of_load (h : load bytes = .ok r) : r.EndsWithByteCode bytes := by
  obtain ⟨stored, raw, hloaded⟩ := load_eq_ok.1 h
  refine ⟨fun n hn => ?_, fun n hn => ?_, fun more => ?_⟩
  · exact load_of_cut hloaded.header hloaded.version hn
      (Nat.le_trans (Nat.le_of_lt hn) hloaded.codeEnd)
  · have hsame : (bytes.take n).toList.take r.header.stop = bytes.toList.take r.header.stop := by
      simp [List.take_take, Nat.min_eq_left hn]
    have hsize : (bytes.take n).size = min n bytes.size := by simp
    rw [load_of_take_eq h hsame, hsize]
  · have hsame : (bytes ++ more).toList.take r.header.stop = bytes.toList.take r.header.stop := by
      rw [Array.toList_append, List.take_append_of_le_length]
      exact hloaded.codeEnd
    rw [load_of_take_eq h hsame, Array.size_append]

/-- The byte code of a built resource ends with its bytes. -/
theorem load_take_of_build {d : Description} {settings : BuildSettings}
    (h : (build d settings).run.value = .ok bytes) {n : Nat} (hn : n < bytes.size) :
    ∃ e, load (bytes.take n) = .error e := by
  obtain ⟨-, plans, code, -, hsize, rfl⟩ := build_eq_ok.1 h
  generalize (⟨d, plans, code⟩ : Plan) = p at hsize hn
  have hstop : p.header.stop = p.bytes.size := by
    have hoffset : p.byteCodeOffset ≤ p.size := Nat.le_add_right _ _
    have hcount : p.code.length ≤ p.size := by
      rw [Plan.size]
      omega
    have hfits : ∀ m ≤ p.size, (UInt32.ofNat m).toNat = m := fun m hm =>
      UInt32.toNat_ofNat_of_lt' (Nat.lt_of_le_of_lt (Nat.le_trans hm hsize) (by decide))
    rw [Header.stop, Plan.header, hfits _ hoffset, hfits _ hcount, p.size_bytes, Plan.size,
      Nat.mul_comm]
  exact ⟨_, load_of_cut p.result_header rfl (hstop ▸ hn) (Nat.le_of_lt hn)⟩

/-- **A resource that is cut is never loaded, and one that is extended loads as before.** -/
theorem load_cut_or_extended :
    (∀ bytes r, load bytes = .ok r → r.EndsWithByteCode bytes) ∧
      ∀ d settings bytes, (build d settings).run.value = .ok bytes →
        ∀ n < bytes.size, ∃ e, load (bytes.take n) = .error e :=
  ⟨fun _ _ => endsWithByteCode_of_load, fun _ _ _ h _ => load_take_of_build h⟩

/-- The smallest machine: a state with one animation, whose speed and weight are both 1. -/
def smallestMachine : Blob :=
  (([1, 24, 0, 56, 2, 56] ++ [0, 0, 0, 1, 0, 0, 0, 0] ++ [0x3f800000, 0x7fa00000] :
    List UInt32).flatMap wordBytes).toArray

/-- The smallest machine, cut within its header and within its byte code, and the built walker, cut
behind its header. -/
theorem load_cut_or_extended_smallestMachine :
    (∃ r, load smallestMachine = .ok r ∧ r.EndsWithByteCode smallestMachine ∧
      load (smallestMachine.take 10) = .error (.truncated 8 4) ∧
      load (smallestMachine.take 63) = .error (.outOfBounds .byteCode 56)) ∧
    ∃ bytes, (build walker {}).run.value = .ok bytes ∧ 24 < bytes.size ∧
      ∃ e, load (bytes.take 24) = .error e := by
  obtain ⟨r, hload, hheader⟩ : ∃ r, load smallestMachine = .ok r ∧
      r.header = ⟨1, 24, 0, 56, 2, 56⟩ := by
    refine ⟨⟨64, ⟨1, 24, 0, 56, 2, 56⟩, ⟨0⟩, [⟨24, 0, false, [], [⟨⟨0⟩, 0⟩]⟩], [], [],
      [.push ⟨0x3f800000⟩, .finish]⟩, ?_, rfl⟩
    decide +kernel
  have hends := load_cut_or_extended.1 smallestMachine r hload
  obtain ⟨bytes, hbuild⟩ := exists_ok_of_isSome_toOption
    (show (build walker {}).run.value.toOption.isSome by decide +kernel)
  have hsize : 24 < bytes.size := by
    have hany : (build walker {}).run.value.toOption.any (24 < ·.size) := by decide +kernel
    rw [hbuild] at hany
    exact of_decide_eq_true hany
  refine ⟨⟨r, hload, hends, ?_, ?_⟩, bytes, hbuild, hsize,
    load_cut_or_extended.2 walker {} bytes hbuild 24 hsize⟩
  · rw [hends.refused 10 (by rw [hheader]; decide), hheader]
    rfl
  · rw [hends.refused 63 (by rw [hheader]; decide), hheader]
    rfl

end Flipbook.Machine
