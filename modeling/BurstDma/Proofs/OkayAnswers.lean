import BurstDma.Proofs.MemoryWrites

/-!
# What an answer without an error means

A memory refuses an access with a response, and the response is what tells of it. **As long as no
region refuses with the response of a success, a success means that the data moved**: every beat
of a write that is answered so is stored, and every beat of a read that comes so carries the word
of its address.
-/

namespace BurstDma

namespace Store

variable {s : Store} {addr k : Nat} {w : Word}

/-- Every region of the store refuses with an error. -/
def Candid (s : Store) : Prop :=
  ∀ r ∈ s.regions, r.resp ≠ .okay

/-- The word that is stored at an address. -/
def stored? (s : Store) (addr : Nat) : Option Word :=
  match s.target addr with
  | .ok k => s.get? k
  | .error _ => none

theorem Candid.target (h : s.Candid) {resp : Resp} (ht : s.target addr = .error resp) :
    resp ≠ .okay := by
  unfold Store.target at ht
  split at ht
  · rename_i region hfind
    cases ht
    exact h region (List.mem_of_find?_eq_some hfind)
  · split at ht
    · cases ht
    · cases ht
      nofun

/-- **A read access that succeeds shows the stored word.** -/
theorem Candid.readAt (h : s.Candid) (hpos : s.geometry.wordBytes ≠ 0)
    (hr : s.readAt addr = .ok (w, .okay)) : s.stored? addr = some w := by
  unfold Store.readAt at hr
  rw [locate_target hpos] at hr
  unfold stored?
  cases ht : s.target addr with
  | ok k =>
      rw [ht] at hr
      cases hr
      obtain ⟨_, hin, rfl⟩ := target_eq_ok.mp ht
      have hget : s.get? (addr / s.geometry.wordBytes)
          = some s.words[addr / s.geometry.wordBytes] := Array.getElem?_eq_getElem hin
      dsimp only
      rw [hget]
      rfl
  | error resp =>
      rw [ht] at hr
      cases hr
      exact absurd rfl (h.target ht)

end Store

namespace Resp

/-- The worst of some responses is a success only if all of them are. -/
theorem foldl_worse_okay {resps : List Resp} {a : Resp} (h : resps.foldl worse a = .okay) :
    a = .okay ∧ ∀ r ∈ resps, r = .okay := by
  induction resps generalizing a with
  | nil => exact ⟨h, nofun⟩
  | cons r rest ih =>
      obtain ⟨hworse, hrest⟩ := ih h
      have hboth : a = .okay ∧ r = .okay := by
        cases a <;> cases r <;> first | exact ⟨rfl, rfl⟩ | cases hworse
      exact ⟨hboth.1, List.forall_mem_cons.mpr ⟨hboth.2, hrest⟩⟩

end Resp

namespace MemoryWrite

variable {s : Store} {w : MemoryWrite}

/-- **A write that is answered with a success is stored as a whole.** -/
theorem target_of_okay (hc : s.Candid) (h : (w.answer s).resp = .okay) {a : Nat} {d : Word}
    (hp : (a, d) ∈ w.placed s.geometry) : s.target a = .ok (a / s.geometry.wordBytes) := by
  rw [answer_resp] at h
  cases ht : s.target a with
  | ok k => rw [(Store.target_eq_ok.mp ht).2.2]
  | error resp =>
      have hrefused : resp ∈ w.refused s := by
        refine List.mem_filterMap.mpr ⟨(a, d), hp, ?_⟩
        unfold Store.refusal?
        rw [ht]
      exact absurd ((Resp.foldl_worse_okay h).2 resp hrefused) (hc.target ht)

end MemoryWrite

/-- The words of such a write are in the store behind it, one after the other, unless a beat of
the same write comes 2^32 beats later. -/
theorem Store.get?_commit_okay {s : Store} {w : MemoryWrite} (hc : s.Candid)
    (hpos : s.geometry.wordBytes ≠ 0) (h : (w.answer s).resp = .okay) {i : Nat} {b : WriteBeat}
    (hb : w.beats[i]? = some b) (hlate : w.beats.length ≤ i + limit32) :
    (s.commit w).get? (w.request.addr / s.geometry.wordBytes + i % limit32) = some b.data := by
  have hword : ∀ j, (w.request.addr + j * s.geometry.wordBytes) / s.geometry.wordBytes
      = w.request.addr / s.geometry.wordBytes + j := fun j =>
    Nat.add_mul_div_right _ _ (Nat.pos_of_ne_zero hpos)
  obtain ⟨hi, rfl⟩ := List.getElem?_eq_some_iff.mp hb
  have hcut : w.placed s.geometry
      = placedFrom s.geometry w.request.addr 0 (w.beats.take i)
        ++ (w.request.addr + i % limit32 * s.geometry.wordBytes, w.beats[i].data)
          :: placedFrom s.geometry w.request.addr (i + 1) (w.beats.drop (i + 1)) := by
    unfold MemoryWrite.placed
    conv => lhs; rw [← List.take_append_drop i w.beats, List.drop_eq_getElem_cons hi]
    rw [placedFrom_append, placedFrom_cons, List.length_take, Nat.min_eq_left (Nat.le_of_lt hi),
      Nat.zero_add]
  have htarget := MemoryWrite.target_of_okay hc h (a := _) (d := _)
    (hcut ▸ List.mem_append_right _ List.mem_cons_self)
  rw [hword] at htarget
  -- no beat behind this one leads to the same word
  have hnone : (placedFrom s.geometry w.request.addr (i + 1) (w.beats.drop (i + 1))).filter
      (fun p => s.target p.1 = .ok (w.request.addr / s.geometry.wordBytes + i % limit32)) = [] := by
    rw [List.filter_eq_nil_iff]
    rintro ⟨a, d⟩ hp hsame
    obtain ⟨k, b, hk, rfl, rfl⟩ := mem_placedFrom.mp hp
    have hk' := (List.getElem?_eq_some_iff.mp hk).1
    rw [List.length_drop] at hk'
    have hindex := (target_eq_ok.mp (of_decide_eq_true hsame)).2.2
    rw [hword] at hindex
    have h32 : limit32 = 4294967296 := rfl
    rw [h32] at hindex hlate
    omega
  rw [get?_commit, hcut, List.filter_append, List.filter_cons, if_pos (decide_eq_true htarget),
    hnone, List.getLast?_concat]
  rfl

/-! ## Along a run -/

namespace Memory

variable {m₀ m : Memory} {past : List MemoryCycle}

/-- The stores that a memory is read from have one shape. -/
theorem Cycles.sent_shape (hpos : m₀.store.geometry.wordBytes ≠ 0) (hrest : m₀.reset = m₀)
    (h : m₀.Cycles past m) : ∀ x ∈ sent past,
      x.1.geometry = m₀.store.geometry ∧ x.1.regions = m₀.store.regions := by
  induction h with
  | start => nofun
  | @cycle past m m' reads writes hrun hs hslave hnext ih =>
      obtain ⟨hgeo, hregions, _⟩ := (hrun.commits hpos hrest).shape
      intro x hx
      rw [sent_concat] at hx
      rcases List.mem_append.mp hx with hx | hx
      · exact ih x hx
      · obtain ⟨b, _, rfl⟩ := Option.map_eq_some_iff.mp (Option.mem_toList.mp hx)
        exact ⟨hgeo, hregions⟩

/-- **A beat that comes with a success carries the word that is stored at its address.** -/
theorem Cycles.okay_beat (hg : m₀.store.geometry.Legal) (hrest : m₀.reset = m₀)
    (hcandid : m₀.store.Candid) (h : m₀.Cycles past m) {k : Nat} {s : Store} {b : ReadBeat}
    (hb : (sent past)[k]? = some (s, b)) (hokay : b.resp = .okay) :
    ∃ w, (asked past)[k]? = some w ∧ b.id = w.request.id
      ∧ s.stored? (w.request.addr + w.index * m₀.store.geometry.wordBytes) = some b.data := by
  have hpos := Nat.ne_of_gt hg.wordBytes_pos
  obtain ⟨hgeo, hregions⟩ := h.sent_shape hpos hrest _ (List.mem_of_getElem? hb)
  obtain ⟨done, hasked, hlen, hanswers⟩ :=
    (h.serves hg (congrArg Memory.reads hrest).symm).queue
  obtain ⟨hk, _⟩ := List.getElem?_eq_some_iff.mp hb
  have hdone : done[k]? = some done[k] := List.getElem?_eq_getElem (hlen ▸ hk)
  have hbeat : b = done[k].answer s := by
    have hat := congrArg (·[k]?) hanswers
    rw [List.getElem?_map, hb, List.getElem?_zipWith, hdone, hb] at hat
    exact Option.some.inj hat
  subst hbeat
  refine ⟨done[k], ?_, rfl, ?_⟩
  · rw [hasked, List.getElem?_append_left (hlen ▸ hk)]
    exact hdone
  · refine Store.Candid.readAt (fun r hr => hcandid r (hregions ▸ hr)) (by rwa [hgeo]) ?_
    rw [Store.readAt_lookup (by rwa [hgeo]), ← hgeo, ← hokay]
    rfl

/-- **A write that is answered with a success was stored as a whole**: every beat of it leads to a
word, which keeps it unless a beat of the same write comes 2^32 beats later. -/
theorem Cycles.okay_answer (hpos : m₀.store.geometry.wordBytes ≠ 0) (hrest : m₀.reset = m₀)
    (hcandid : m₀.store.Candid) (h : m₀.Cycles past m) {k : Nat} {b : WriteResp}
    (hb : (answered past)[k]? = some b) (hokay : b.resp = .okay) :
    ∃ w, (completed past)[k]? = some w ∧ b.id = w.request.id
      ∧ ∀ i beat, w.beats[i]? = some beat →
        m₀.store.target (w.request.addr + i % limit32 * m₀.store.geometry.wordBytes)
            = .ok (w.request.addr / m₀.store.geometry.wordBytes + i % limit32)
          ∧ (w.beats.length ≤ i + limit32 →
            (((completed past).take (k + 1)).foldl Store.commit m₀.store).get?
              (w.request.addr / m₀.store.geometry.wordBytes + i % limit32) = some beat.data) := by
  have hanswers := congrArg (·[k]?) (h.commits hpos hrest).answers
  obtain ⟨hk, _⟩ := List.getElem?_eq_some_iff.mp hb
  rw [List.getElem?_append_left hk, hb, List.getElem?_map] at hanswers
  obtain ⟨w, hw, rfl⟩ := Option.map_eq_some_iff.mp hanswers
  refine ⟨w, hw, rfl, fun i beat hbeat => ⟨?_, fun hlate => ?_⟩⟩
  · rw [← Nat.add_mul_div_right w.request.addr (i % limit32) (Nat.pos_of_ne_zero hpos)]
    exact MemoryWrite.target_of_okay hcandid hokay
      (mem_placedFrom.mpr ⟨i, beat, hbeat, by rw [Nat.zero_add], rfl⟩)
  · -- the store that the write finds has the shape of the first one
    obtain ⟨hgeo, hregions, hsize⟩ := foldl_commit_shape m₀.store ((completed past).take k)
    rw [← w.answer_congr hgeo hregions hsize] at hokay
    rw [List.take_add_one, hw, List.foldl_append, ← hgeo]
    exact Store.get?_commit_okay (fun r hr => hcandid r (hregions ▸ hr)) (by rwa [hgeo]) hokay
      hbeat hlate

end Memory

end BurstDma
