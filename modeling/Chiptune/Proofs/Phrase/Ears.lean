import Chiptune.Proofs.Likeness
import Chiptune.Proofs.Phrase.Draws
import Chiptune.Proofs.Phrase.Playing

/-!
# What one ear hears

The two channels of a frame never meet: merging, folding and echoing work on each of them alone, and
an instrument that is moved all the way to one side contributes nothing but zeros to the other. A
melody on such an instrument can be left out, and the other ear hears the same. Only noise has to
stay, since it draws from the random source of the melodies after it.

* `Ear`, `Ear.hear` and `Ear.side`, one channel and the position that only it hears;
* `Mutes`, the frames that an ear does not hear, and `mutes_binary64`;
* `Part.channel_play`, one melody, and `Part.playAll_filter`, all melodies;
* `Phrase.without` and `Phrase.render_without`, the whole phrase.
-/

namespace Chiptune

open Binary64

/-! ## Ears -/

/-- One of the two channels. -/
inductive Ear where
  | left
  | right
deriving DecidableEq

namespace Ear

/-- The opposite ear. -/
def other : Ear → Ear
  | .left => .right
  | .right => .left

/-- The position that is heard on this side only. -/
def side : Ear → Pan
  | .left => .left
  | .right => .right

/-- The channel of an ear. -/
def hear {R : Type} : Ear → Frame R → R
  | .left => Frame.left
  | .right => Frame.right

/-- An ear hears the same of both frames. -/
def HearsAlike {R : Type} (ear : Ear) (a b : Frame R) : Prop := ear.hear a = ear.hear b

variable {R : Type} [Amplitude R]

theorem hear_silent (ear : Ear) : ear.hear (Frame.silent : Frame R) = 0 := by
  cases ear <;> rfl

theorem hear_add (ear : Ear) (a b : Frame R) :
    ear.hear (a.add b) = fold (ear.hear a + ear.hear b) := by
  cases ear <;> rfl

theorem hear_scale (ear : Ear) (a : Frame R) (gain : R) :
    ear.hear (a.scale gain) = ear.hear a * gain := by
  cases ear <;> rfl

/-- Neither channel has a part in what becomes of the other. -/
theorem congruence_hearsAlike (ear : Ear) : Congruence (R := R) ear.HearsAlike where
  silent := rfl
  add := by
    intro a b f g hab hfg
    show ear.hear _ = ear.hear _
    rw [hear_add, hear_add, hab, hfg]
  scale := by
    intro a b gain hab
    show ear.hear _ = ear.hear _
    rw [hear_scale, hear_scale, hab]

end Ear

variable {R : Type}

/-- What one ear hears of a run of frames. -/
def Buffer.channel (ear : Ear) (buffer : Buffer R) : Array R := buffer.map ear.hear

theorem Buffer.alike_iff_channel {ear : Ear} {b d : Buffer R} :
    b.Alike ear.HearsAlike d ↔ b.channel ear = d.channel ear :=
  Buffer.Alike.eq_iff_map

/-! ## What an ear does not hear -/

variable [Amplitude R] {σ : Type} [RandomSource σ]

/-- An ear does not hear the frames with `Q` among settled ones, and hears nothing at all in a
buffer that only such frames are merged into. -/
structure Mutes (ear : Ear) (P Q : Frame R → Prop) : Prop extends Kept P Q where
  mute (a b : Frame R) : a.Settled → Q b → ear.hear (a.add b) = ear.hear a

variable {ear : Ear} {P Q : Frame R → Prop}

/-- Merging frames that an ear does not hear leaves its channel as it was. -/
theorem Mutes.channel_addAll [LawfulFolding R] (h : Mutes ear P Q) {b : Buffer R}
    (hb : b.All Frame.Settled) {vs : List (ℕ × Frame R)} (hvs : ∀ v ∈ vs, Q v.2) :
    (b.addAll vs).channel ear = b.channel ear := by
  induction vs generalizing b with
  | nil => rfl
  | cons v vs ih =>
    obtain ⟨hv, hvs⟩ := List.forall_mem_cons.mp hvs
    have hstep : (b.addAt v.1 v.2).channel ear = b.channel ear := by
      refine Array.ext_getElem? fun j => ?_
      rw [Buffer.channel, Buffer.channel, Array.getElem?_map, Array.getElem?_map,
        Buffer.getElem?_addAt]
      split_ifs
      · rw [Option.map_map]
        refine Option.map_congr fun f hf => ?_
        exact h.mute f v.2 (Buffer.all_iff.mp hb j f hf) hv
      · rfl
    have hsettled : (b.addAt v.1 v.2).All Frame.Settled :=
      hb.addAt v.1 fun f hf => LawfulFolding.settled_add f v.2 hf
    exact (ih hsettled hvs).trans hstep

/-- So does overlaying a buffer of such frames. -/
theorem Mutes.channel_overlay (h : Mutes ear P Q) {b s : Buffer R} (hb : b.All Frame.Settled)
    (hs : s.All Q) (offset : ℕ) : (b.overlay s offset).channel ear = b.channel ear := by
  refine Array.ext_getElem? fun j => ?_
  rw [Buffer.channel, Buffer.channel, Array.getElem?_map, Array.getElem?_map,
    Buffer.getElem?_overlay]
  split_ifs
  · rw [Option.map_map]
    refine Option.map_congr fun f hf => ?_
    cases hg : s[j - offset]? with
    | none => rfl
    | some g => exact h.mute f g (Buffer.all_iff.mp hb j f hf) (Buffer.all_iff.mp hs _ g hg)
  · rfl

/-! ## Melodies -/

namespace Part

/-- A part that an ear does not hear leaves its channel as it was. -/
theorem channel_play [LawfulFolding R] (h : Mutes ear P Q) {part : Part} (hsounds : part.Sounds σ Q)
    {b : Buffer R} (hb : b.All Frame.Settled) (source : σ) :
    (part.play b source).1.channel ear = b.channel ear := by
  unfold play
  simp only
  split_ifs
  · have hdry := all_playAll_spans h.toKept hsounds
      (Buffer.all_silence b.size h.silent) source
    have hecho := hdry.echo part.melody.instrument.reverb.delay
      part.melody.instrument.reverb.decay fun f g hf hg => h.add f _ hf (h.echo g _ hg)
    exact h.channel_overlay hb (fun f hf => h.whole f (hecho f hf)) 0
  · rw [Span.playAll_eq]
    exact h.channel_addAll hb (hsounds.voices b.size source)

theorem playAll_cons (part : Part) (parts : List Part) (b : Buffer R) (source : σ) :
    playAll (part :: parts) b source
      = playAll parts (part.play b source).1 (part.play b source).2 := rfl

/-- Parts that an ear does not hear, and that draw nothing, can be left out. -/
theorem playAll_filter [LawfulFolding R] (h : Mutes ear P Q) (keep : Part → Bool)
    {parts : List Part} (hparts : ∀ part ∈ parts, keep part = false →
      part.Sounds σ Q ∧ part.melody.instrument.tone ≠ .noise)
    {b d : Buffer R} (hb : b.All Frame.Settled) (hbd : b.channel ear = d.channel ear) (source : σ) :
    (playAll parts b source).1.channel ear = (playAll (parts.filter keep) d source).1.channel ear ∧
      (playAll parts b source).2 = (playAll (parts.filter keep) d source).2 := by
  induction parts generalizing b d source with
  | nil => exact ⟨hbd, rfl⟩
  | cons part parts ih =>
    obtain ⟨hpart, hparts⟩ := List.forall_mem_cons.mp hparts
    have hsettled := all_play kept_settled part (fun _ _ _ _ _ => trivial) hb source
    rw [playAll_cons]
    cases hkeep : keep part with
    | true =>
      obtain ⟨hplay, hsource⟩ := alike_play ear.congruence_hearsAlike
        (rfl : part.spans = part.spans) ⟨rfl, rfl, rfl, fun _ => rfl⟩
        (Buffer.alike_iff_channel.mpr hbd) source
      rw [List.filter_cons_of_pos hkeep, playAll_cons, ← hsource]
      exact ih hparts hsettled (Buffer.alike_iff_channel.mp hplay) _
    | false =>
      obtain ⟨hsounds, htone⟩ := hpart hkeep
      have hsource : (part.play b source).2 = source :=
        congrArg Prod.snd (part.play_of_ne_noise htone b source source)
      rw [List.filter_cons_of_neg (by simp [hkeep]), hsource]
      exact ih hparts hsettled ((channel_play h hsounds hb source).trans hbd) source

end Part

/-- A score has no fault when none of its melodies has one. -/
theorem Score.fault_eq_none_iff {step : ℕ} {melodies : List Melody} :
    (partsOf step melodies).findSome? Part.fault = none ↔
      ∀ melody ∈ melodies, (Part.ofMelody step melody).fault = none := by
  induction melodies with
  | nil => exact ⟨fun _ _ hmem => absurd hmem List.not_mem_nil, fun _ => rfl⟩
  | cons melody melodies ih =>
    rw [partsOf, List.findSome?_cons, List.forall_mem_cons, ← ih]
    cases (Part.ofMelody step melody).fault with
    | some fault =>
      exact ⟨fun h => absurd h (Option.some_ne_none _), fun h => absurd h.1 (Option.some_ne_none _)⟩
    | none => exact ⟨fun h => ⟨rfl, h⟩, fun h => h.2⟩

/-- The phrase without some of its melodies. -/
def Phrase.without (drop : Melody → Bool) (phrase : Phrase) : Phrase :=
  { phrase with melodies := phrase.melodies.filter fun melody => !drop melody }

/-- A rendered phrase can do without melodies that an ear does not hear. -/
theorem Phrase.render_without [LawfulFolding R] (h : Mutes ear P Q) {drop : Melody → Bool}
    {phrase : Phrase} (hdrop : ∀ melody, drop melody = true →
      (Part.ofMelody phrase.stepSize melody).Sounds σ Q ∧ melody.instrument.tone ≠ .noise)
    {source after : σ} {buffer : Buffer R}
    (hrender : phrase.render.outcome source = (.ok buffer, after)) :
    ∃ buffer' : Buffer R, (phrase.without drop).render.outcome source = (.ok buffer', after) ∧
      buffer'.channel ear = buffer.channel ear := by
  obtain ⟨hvalid, hfault, hplay⟩ := render_eq_ok_iff.mp hrender
  rw [validate_eq_ok] at hvalid
  rw [Score.fault_eq_none_iff] at hfault
  have hvalid' : (phrase.without drop).validate = .ok () :=
    validate_eq_ok.mpr ⟨hvalid.1, fun melody hmem => hvalid.2 melody (List.mem_filter.mp hmem).1⟩
  have hfault' := Score.fault_eq_none_iff.mpr fun melody
    (hmem : melody ∈ (phrase.without drop).melodies) => hfault melody (List.mem_filter.mp hmem).1
  -- the parts that are left are those of the melodies that are left
  have hparts : (phrase.without drop).melodies.map (Part.ofMelody phrase.stepSize)
      = (phrase.melodies.map (Part.ofMelody phrase.stepSize)).filter
          fun part => !drop part.melody := by
    rw [List.filter_map]
    rfl
  have hdropped : ∀ part ∈ phrase.melodies.map (Part.ofMelody phrase.stepSize),
      (!drop part.melody) = false →
        part.Sounds σ Q ∧ part.melody.instrument.tone ≠ .noise := by
    intro part hpart hkeep
    obtain ⟨melody, -, rfl⟩ := List.mem_map.mp hpart
    rw [Bool.not_eq_false'] at hkeep
    exact hdrop melody hkeep
  obtain ⟨hchannel, hsource⟩ := Part.playAll_filter h (fun part => !drop part.melody) hdropped
    (Buffer.all_silence phrase.frameCount LawfulFolding.settled_silent) rfl source
  rw [hplay, ← hparts] at hchannel hsource
  exact ⟨_, render_eq_ok_iff.mpr ⟨hvalid', hfault', Prod.ext rfl hsource.symm⟩, hchannel.symm⟩

/-! ## Binary64 -/

/-- Adding a zero to a channel of a settled frame changes nothing. -/
theorem fold_add_of_isZero {v z : Float} (hv : fold (Amplitude.ofCount 0 + v) = v)
    (hz : IsZero z) : fold (v + z) = v := by
  obtain ⟨hfold, hsign⟩ := settled_channel hv
  rcases hz with hz | hz
  · rw [add_zero_of_not hz hsign, hfold]
  · rw [add_negativeZero v hz, hfold]

/-- An ear does not hear frames that are zero on its side, and hears a zero where there is nothing
else. -/
theorem mutes_binary64 (sine : Float → Float) (ear : Ear) :
    @Mutes Float (.binary64 sine) ear (fun f => ear.hear f = 0) fun f => IsZero (ear.hear f) := by
  have hzero : IsZero (0 : Float) := isZero_iff.mpr zero_spec
  have hsettled : fold (Amplitude.ofCount 0 + 0 : Float) = 0 := by decide
  let := Amplitude.binary64 sine
  exact {
    silent := by rw [ear.hear_silent]; rfl
    add := by
      intro a b ha hb
      rw [ear.hear_add, ha]
      exact fold_add_of_isZero hsettled hb
    whole := by
      intro a ha
      rw [ha]
      exact hzero
    echo := by
      intro a reverb ha
      rw [ear.hear_scale, ha]
      exact isZero_mul zero_spec.1 reverb.decay_inRange.1 (Or.inl zero_spec.2)
    mute := by
      intro a b ha hb
      have hchannel : fold (Amplitude.ofCount 0 + ear.hear a) = ear.hear a := by
        cases ear
        · exact congrArg Frame.left ha
        · exact congrArg Frame.right ha
      rw [ear.hear_add]
      exact fold_add_of_isZero hchannel hb }

/-- An instrument that is moved to one side sends zeros to the other. -/
theorem Instrument.isZero_place {instrument : Instrument} {ear : Ear}
    (hpan : instrument.pan = ear.other.side) {v : Float} (hv : v.isFinite = true) :
    IsZero (ear.hear (instrument.place v)) := by
  have hloud := (mul_le_of_inRange hv instrument.volume.value_inRange).1
  have hgain : ∀ gain : Float, gain = 0 → IsZero (v * instrument.volume.value * gain) := by
    rintro gain rfl
    exact isZero_mul hloud zero_spec.1 (Or.inr zero_spec.2)
  rw [Instrument.place, hpan]
  cases ear with
  | left => exact hgain _ (by decide)
  | right => exact hgain _ (by decide)

theorem Part.sounds_isZero {sine : Float → Float}
    (hsine : ∀ x, x.isFinite = true → (sine x).isFinite = true) {ear : Ear} {melody : Melody}
    (hpan : melody.instrument.pan = ear.other.side) (step : ℕ) :
    @Part.Sounds Float (.binary64 sine) σ _ (fun f => IsZero (ear.hear f))
      (Part.ofMelody step melody) := by
  intro span hspan index hindex source
  obtain ⟨-, hle⟩ := Part.cycle_bounds hspan
  have hbound : (1 : ℚ) ≤ 2 ^ (1024 : ℤ) := one_le_zpow₀ (by norm_num) (by norm_num)
  obtain ⟨hf, -⟩ := Oscillator.valueAt_le hbound
    (fun x hx => ⟨hsine x hx, (abs_value_lt _).le⟩) melody.instrument.tone
    (by omega : span.cycle < 2 ^ 32) hindex source
  exact Instrument.isZero_place hpan hf

end Chiptune
