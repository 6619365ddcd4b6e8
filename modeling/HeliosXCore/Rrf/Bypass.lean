import HeliosXCore.Rtl.Rrf

/-! The bypass of the RRF: what a read sees of the five forwarding ports.

    The circuit asks whether some port writes and whether some port shows the tag, but not whether
    these are the same port. A read therefore obeys the ports that write exactly when every port
    before the first one that writes the tag writes too. -/

namespace HeliosXCore
open Rtl

namespace Forward

/-- The port shows tag `t`. -/
def carries (t : RrfTag) (p : Forward) : Bool := t == p.rrftag

/-- The port writes tag `t`. -/
def writes (t : RrfTag) (p : Forward) : Bool := p.we && p.carries t

end Forward

namespace Forwards

/-- The ports in the order in which the data multiplexer looks at them. -/
def ports (f : Forwards) : List Forward := [f.alu1, f.alu2, f.ldst, f.mul, f.branch]

def map (g : Forward → Forward) (f : Forwards) : Forwards :=
  ⟨g f.alu1, g f.alu2, g f.ldst, g f.mul, g f.branch⟩

theorem ports_map (g : Forward → Forward) (f : Forwards) : (f.map g).ports = f.ports.map g := rfl

end Forwards

namespace Rrf

/-- `p` and `p'` write the same; what a port shows while it does not write may differ. -/
def SameWrite (p p' : Forward) : Prop := p.we = p'.we ∧ (p.we = true → p = p')

/-- The ports of `f` and `f'` write the same. -/
def SameWrites (f f' : Forwards) : Prop := List.Forall₂ SameWrite f.ports f'.ports

/-- The bypass answers only for ports that write. -/
structure AnswersForWriters (s : Rrf) (f : Forwards) (t : RrfTag) : Prop where
  /-- The answer is valid when the entry is or a port writes the tag. -/
  valid : s.rsRrfvalid f t = true ↔ bit s.rrfValid t = true ∨ ∃ p ∈ f.ports, p.writes t
  /-- The data of a bypassed answer is that of the first port that writes the tag. -/
  data : bit s.rrfValid t = false → s.rsRrfvalid f t = true →
    ∃ p, f.ports.find? (Forward.writes t) = some p ∧ s.rsRrfdata f t = p.data
  /-- A port that does not write has no influence. -/
  silent : ∀ f', SameWrites f f' →
    s.rsRrfvalid f' t = s.rsRrfvalid f t ∧ s.rsRrfdata f' t = s.rsRrfdata f t

/-- Each port of the list writes, up to the first one that writes tag `t`. -/
def Guarded (t : RrfTag) : List Forward → Prop
  | [] => True
  | p :: l => p.we = true ∧ (p.carries t = true ∨ Guarded t l)

variable {s : Rrf} {f : Forwards} {t : RrfTag}

/-! ### The outputs over the list of ports -/

theorem forwardAccessible_eq_any : forwardAccessible f t =
    (f.ports.any Forward.we && f.ports.any (Forward.carries t)) := by
  rcases f with ⟨p1, p2, p3, p4, p5⟩
  simp only [forwardAccessible, Forwards.ports, List.any_cons, List.any_nil, Forward.carries,
    Bool.or_false, Bool.or_assoc]
  cases p1.we || (p2.we || (p3.we || (p4.we || p5.we))) <;> rfl

theorem rsRrfvalid_eq_or : s.rsRrfvalid f t = (bit s.rrfValid t || forwardAccessible f t) := by
  rw [rsRrfvalid]
  cases bit s.rrfValid t <;> cases forwardAccessible f t <;> rfl

theorem rsRrfdata_of_not_accessible (h : forwardAccessible f t = false) :
    s.rsRrfdata f t = s.rrfData t := by
  simp [rsRrfdata, h]

theorem find_cons (p : Forward) (l : List Forward) : (p :: l).find? (Forward.carries t) =
    if t = p.rrftag then some p else l.find? (Forward.carries t) := by
  by_cases h : t = p.rrftag <;> simp [Forward.carries, h]

/-- The multiplexer takes the first port that shows the tag. -/
theorem rsRrfdata_of_find (hv : bit s.rrfValid t = false) (ha : forwardAccessible f t = true)
    {p : Forward} (hp : f.ports.find? (Forward.carries t) = some p) :
    s.rsRrfdata f t = p.data := by
  simp only [Forwards.ports, find_cons, List.find?_nil] at hp
  rw [rsRrfdata, hv, ha]
  simp only [Bool.not_false, Bool.and_self, if_true]
  split_ifs at hp ⊢ <;> cases hp <;> rfl

/-- A port that writes the tag makes the read valid. -/
theorem accessible_of_writes {q : Forward} (hq : f.ports.find? (Forward.writes t) = some q) :
    forwardAccessible f t = true := by
  have hmem := List.mem_of_find?_eq_some hq
  have hw := List.find?_some hq
  simp only [Forward.writes, Bool.and_eq_true] at hw
  rw [forwardAccessible_eq_any, Bool.and_eq_true, List.any_eq_true, List.any_eq_true]
  exact ⟨⟨q, hmem, hw.1⟩, ⟨q, hmem, hw.2⟩⟩

/-! ### Guarded lists of ports -/

/-- In a guarded list the first port that shows the tag is the first that writes it. -/
theorem Guarded.find_carries {l : List Forward} (h : Guarded t l) :
    l.find? (Forward.carries t) = l.find? (Forward.writes t) := by
  induction l with
  | nil => rfl
  | cons p l ih =>
    rcases h with ⟨hwe, hc | hl⟩
    · simp [Forward.writes, hwe, hc]
    · simp [List.find?_cons, Forward.writes, hwe, ih hl]

/-- Guarding speaks only of what the ports write. -/
theorem Guarded.of_same {l l' : List Forward} (h : Guarded t l) (hs : List.Forall₂ SameWrite l l') :
    Guarded t l' ∧ l'.find? (Forward.writes t) = l.find? (Forward.writes t) := by
  induction hs with
  | nil => exact ⟨trivial, rfl⟩
  | @cons p p' l l' hp _ ih =>
    rcases h with ⟨hwe, hc⟩
    obtain rfl : p = p' := hp.2 hwe
    rcases hc with hc | hl
    · exact ⟨⟨hwe, Or.inl hc⟩, by simp [Forward.writes, hwe, hc]⟩
    · rcases ih hl with ⟨hg, hf⟩
      exact ⟨⟨hwe, Or.inr hg⟩, by simp [List.find?_cons, hf]⟩

/-- Whether some port writes is the same for ports that write the same. -/
theorem any_we_of_same {l l' : List Forward} (hs : List.Forall₂ SameWrite l l') :
    l'.any Forward.we = l.any Forward.we := by
  induction hs with
  | nil => rfl
  | cons hp _ ih => simp [ih, hp.1]

/-- The port with its tag and data replaced while it does not write. -/
def disturb (t : RrfTag) (x : Word) (p : Forward) : Forward := if p.we then p else ⟨false, t, x⟩

theorem sameWrites_disturb (t : RrfTag) (x : Word) : SameWrites f (f.map (disturb t x)) := by
  have h : ∀ p : Forward, SameWrite p (disturb t x p) := by
    intro p
    cases hp : p.we <;> simp [SameWrite, disturb, hp]
  exact List.Forall₂.cons (h _) (.cons (h _) (.cons (h _) (.cons (h _) (.cons (h _) .nil))))

/-- Without a guard a port that does not write can bring any data in. -/
theorem find_disturb_of_not_guarded (x : Word) {l : List Forward} (h : ¬ Guarded t l) :
    (l.map (disturb t x)).find? (Forward.carries t) = some ⟨false, t, x⟩ := by
  induction l with
  | nil => exact absurd trivial h
  | cons p l ih =>
    cases hwe : p.we with
    | false => simp [disturb, hwe, Forward.carries]
    | true =>
      have hc : p.carries t = false := by
        by_contra hc
        exact h ⟨hwe, Or.inl (by simpa using hc)⟩
      have hl : ¬ Guarded t l := fun hl => h ⟨hwe, Or.inr hl⟩
      simp [disturb, hwe, hc, ih hl]

/-! ### When the bypass obeys the ports that write -/

theorem AnswersForWriters.of_valid (hv : bit s.rrfValid t = true) : AnswersForWriters s f t where
  valid := by simp [rsRrfvalid_eq_or, hv]
  data := by simp [hv]
  silent := by
    intro f' _
    simp [rsRrfvalid_eq_or, rsRrfdata_of_valid, hv]

theorem AnswersForWriters.of_no_write (h : f.ports.any Forward.we = false) :
    AnswersForWriters s f t := by
  have ha : ∀ f', SameWrites f f' → forwardAccessible f' t = false := by
    intro f' hs
    rw [forwardAccessible_eq_any, any_we_of_same hs, h, Bool.false_and]
  have hf := ha f (List.forall₂_same.mpr fun p _ => ⟨rfl, fun _ => rfl⟩)
  have hw : ¬ ∃ p ∈ f.ports, p.writes t := by
    rintro ⟨p, hp, hpt⟩
    rw [List.any_eq_false] at h
    simp only [Forward.writes, Bool.and_eq_true] at hpt
    exact h p hp hpt.1
  refine ⟨by simp [rsRrfvalid_eq_or, hf, hw], ?_, ?_⟩
  · intro hv h1
    simp [rsRrfvalid_eq_or, hf, hv] at h1
  · intro f' hs
    simp [rsRrfvalid_eq_or, rsRrfdata_of_not_accessible, hf, ha f' hs]

/-- Guarded ports: what is read is fixed by the first port that writes the tag, if there is one. -/
theorem read_of_guarded (hv : bit s.rrfValid t = false) (h : Guarded t f.ports) :
    match f.ports.find? (Forward.writes t) with
    | some p => s.rsRrfvalid f t = true ∧ s.rsRrfdata f t = p.data
    | none => s.rsRrfvalid f t = false ∧ s.rsRrfdata f t = s.rrfData t := by
  cases hp : f.ports.find? (Forward.writes t) with
  | some p =>
    have ha := accessible_of_writes hp
    exact ⟨by rw [rsRrfvalid_eq_or, ha, Bool.or_true],
      rsRrfdata_of_find hv ha (h.find_carries.trans hp)⟩
  | none =>
    have hc := h.find_carries.trans hp
    have ha : forwardAccessible f t = false := by
      rw [forwardAccessible_eq_any, List.any_eq_false.mpr (List.find?_eq_none.mp hc),
        Bool.and_false]
    exact ⟨by rw [rsRrfvalid_eq_or, ha, hv, Bool.or_false], rsRrfdata_of_not_accessible ha⟩

theorem AnswersForWriters.of_guarded (h : Guarded t f.ports) : AnswersForWriters s f t := by
  cases hv : bit s.rrfValid t with
  | true => exact of_valid hv
  | false =>
    have hread := read_of_guarded hv h
    refine ⟨?_, ?_, ?_⟩
    · cases hp : f.ports.find? (Forward.writes t) with
      | some p =>
        rw [hp] at hread
        simp only [hread.1, hv, Bool.false_eq_true, false_or, true_iff]
        exact ⟨p, List.mem_of_find?_eq_some hp, List.find?_some hp⟩
      | none =>
        rw [hp] at hread
        have hnone := List.find?_eq_none.mp hp
        simpa [hread.1, hv] using hnone
    · intro _ h1
      cases hp : f.ports.find? (Forward.writes t) with
      | some p =>
        rw [hp] at hread
        exact ⟨p, rfl, hread.2⟩
      | none =>
        rw [hp] at hread
        rw [hread.1] at h1
        cases h1
    · intro f' hs
      rcases h.of_same hs with ⟨h', hfind⟩
      have hread' := read_of_guarded (f := f') hv h'
      rw [hfind] at hread'
      cases hp : f.ports.find? (Forward.writes t) with
      | some p =>
        rw [hp] at hread hread'
        exact ⟨hread'.1.trans hread.1.symm, hread'.2.trans hread.2.symm⟩
      | none =>
        rw [hp] at hread hread'
        exact ⟨hread'.1.trans hread.1.symm, hread'.2.trans hread.2.symm⟩

/-- The bypass obeys the ports that write exactly when the entry is valid, when no port writes, or
    when each port before the first one that writes the tag writes. -/
theorem answersForWriters_iff (s : Rrf) (f : Forwards) (t : RrfTag) :
    AnswersForWriters s f t ↔
      bit s.rrfValid t = true ∨ (∀ p ∈ f.ports, p.we = false) ∨ Guarded t f.ports := by
  constructor
  · intro h
    by_contra hc
    push Not at hc
    rcases hc with ⟨hv, hw, hg⟩
    have hv' : bit s.rrfValid t = false := by simpa using hv
    have hany : f.ports.any Forward.we = true := by
      rcases hw with ⟨p, hp, hpw⟩
      exact List.any_eq_true.mpr ⟨p, hp, by simpa using hpw⟩
    -- a silent port that shows the tag puts any data on the read port
    have hread : ∀ x, s.rsRrfdata (f.map (disturb t x)) t = x := by
      intro x
      have hfind := find_disturb_of_not_guarded x hg
      rw [← Forwards.ports_map] at hfind
      have ha : forwardAccessible (f.map (disturb t x)) t = true := by
        rw [forwardAccessible_eq_any, any_we_of_same (sameWrites_disturb t x), hany, Bool.true_and]
        exact List.any_eq_true.mpr ⟨_, List.mem_of_find?_eq_some hfind, List.find?_some hfind⟩
      exact rsRrfdata_of_find hv' ha hfind
    have h0 := (h.silent _ (sameWrites_disturb t 0)).2
    have h1 := (h.silent _ (sameWrites_disturb t 1)).2
    rw [hread] at h0 h1
    exact absurd (h0.trans h1.symm) (by decide)
  · rintro (hv | hw | hg)
    · exact .of_valid hv
    · exact .of_no_write (List.any_eq_false.mpr fun p hp => by simp [hw p hp])
    · exact .of_guarded hg

/-! ### The read for the ports as they stand -/

/-- The answer for tag `t` is the one that the ports which write give. -/
structure ReadRight (s : Rrf) (f : Forwards) (t : RrfTag) : Prop where
  valid : s.rsRrfvalid f t = true ↔ bit s.rrfValid t = true ∨ ∃ p ∈ f.ports, p.writes t
  data : bit s.rrfValid t = false → s.rsRrfvalid f t = true →
    ∃ p, f.ports.find? (Forward.writes t) = some p ∧ s.rsRrfdata f t = p.data

theorem AnswersForWriters.readRight (h : AnswersForWriters s f t) : ReadRight s f t :=
  ⟨h.valid, h.data⟩

/-- For given ports the answer is right exactly when the entry is valid, when no port writes, when no
    port shows the tag, or when the first port that shows it has the data of the first that writes
    it. -/
theorem readRight_iff (s : Rrf) (f : Forwards) (t : RrfTag) :
    ReadRight s f t ↔ bit s.rrfValid t = true ∨ (∀ p ∈ f.ports, p.we = false) ∨
      (∀ p ∈ f.ports, p.carries t = false) ∨
        ∃ p q, f.ports.find? (Forward.carries t) = some p ∧
          f.ports.find? (Forward.writes t) = some q ∧ p.data = q.data := by
  constructor
  · intro h
    by_contra hc
    push Not at hc
    obtain ⟨hv, ⟨p, hp, hwe⟩, ⟨c, hcmem, hcar⟩, hdiff⟩ := hc
    have hv' : bit s.rrfValid t = false := by simpa using hv
    have ha : forwardAccessible f t = true := by
      rw [forwardAccessible_eq_any, Bool.and_eq_true, List.any_eq_true, List.any_eq_true]
      exact ⟨⟨p, hp, by simpa using hwe⟩, ⟨c, hcmem, by simpa using hcar⟩⟩
    obtain ⟨r, hr⟩ := Option.isSome_iff_exists.mp
      (List.find?_isSome.mpr ⟨c, hcmem, by simpa using hcar⟩)
    obtain ⟨q, hq, hdata⟩ := h.data hv' (by rw [rsRrfvalid_eq_or, ha, Bool.or_true])
    exact hdiff r q hr hq ((rsRrfdata_of_find hv' ha hr).symm.trans hdata)
  · rintro (hv | hw | hc | ⟨p, q, hp, hq, hdata⟩)
    · exact (AnswersForWriters.of_valid hv).readRight
    · exact (AnswersForWriters.of_no_write
        (List.any_eq_false.mpr fun p hp => by simp [hw p hp])).readRight
    · have ha : forwardAccessible f t = false := by
        have hany : f.ports.any (Forward.carries t) = false :=
          List.any_eq_false.mpr fun p hp => by simp [hc p hp]
        rw [forwardAccessible_eq_any, hany, Bool.and_false]
      have hno : ¬ ∃ p ∈ f.ports, p.writes t := by
        rintro ⟨p, hp, hpt⟩
        simp [Forward.writes, hc p hp] at hpt
      refine ⟨by simp [rsRrfvalid_eq_or, ha, hno], ?_⟩
      intro hv h1
      simp [rsRrfvalid_eq_or, ha, hv] at h1
    · have ha := accessible_of_writes hq
      refine ⟨?_, fun hv _ => ⟨q, hq, (rsRrfdata_of_find hv ha hp).trans hdata⟩⟩
      have hex : ∃ p ∈ f.ports, p.writes t := ⟨q, List.mem_of_find?_eq_some hq, List.find?_some hq⟩
      simp [rsRrfvalid_eq_or, ha, hex]

/-- Port `alu1` writes tag 3, port `alu2` does not write and shows tag 5. -/
def strayTag : Forwards := { Forwards.none with alu1 := ⟨true, 3, 7⟩, alu2 := ⟨false, 5, 9⟩ }

/-- The read of tag 5 is answered, from a port that does not write. -/
theorem strayTag_answered : ¬ AnswersForWriters ⟨0, fun _ => 0⟩ strayTag 5 := by
  intro h
  have hv := h.valid
  revert hv
  decide

end Rrf
end HeliosXCore
