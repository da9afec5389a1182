import HorizonOs.Lifestream.Sample

/-!
# What the object codec can carry

`encode` casts every length to the width of its field and `decode` reads back as
many items as the field says. What is decoded always fits its fields, so an
object survives the two exactly when it fits; a file with more chunks than a
`u32` counts comes back with as many of them as its field has kept.
-/

namespace HorizonOs.Lifestream

open HorizonOs.Lib.ByteCodec HorizonOs.Lib.Text HorizonOs.Lib.Runs

set_option autoImplicit false

/-! ## Decoded objects fit -/

theorem yields_entry :
    Yields (fun entry : TreeEntry => (utf8 entry.name).length < 2 ^ 16) readEntry := by
  refine (yields_any (takeU16 endOfObject)).bind fun nameLength _ => ?_
  refine (yields_utf8 endOfObject _ nameLength.toNat).bind fun name size => ?_
  refine (yields_any (takeU8 endOfObject)).bind fun tag _ => ?_
  refine (yields_any (StateT.lift (NodeKind.fromTag tag))).bind fun kind _ => ?_
  refine (yields_any (takeU32 endOfObject)).bind fun mode _ => ?_
  refine (yields_any (takeFixed endOfObject 32)).bind fun id _ => Yields.pure ?_
  rw [size]
  exact nameLength.toNat_lt

theorem yields_text (notUtf8 : Error) :
    Yields (fun text => (utf8 text).length < 2 ^ 32) (readText notUtf8) := by
  refine (yields_any (takeU32 endOfObject)).bind fun length _ => ?_
  intro input text rest read
  rw [yields_utf8 endOfObject notUtf8 length.toNat input text rest read]
  exact length.toNat_lt

theorem yields_generation :
    Yields (fun g : Generation => (Object.generation g).Fits) readGeneration := by
  refine (yields_any (takeFixed endOfObject 32)).bind fun root _ => ?_
  refine (yields_any (takeU8 endOfObject)).bind fun parentCount _ => ?_
  refine (yields_many (yields_any (takeFixed endOfObject 32)) parentCount.toNat).bind
    fun parents read => ?_
  refine (yields_any (takeU64 endOfObject)).bind fun timeUnix _ => ?_
  refine (yields_text (.corrupt "label not utf8")).bind fun label labelFits => ?_
  refine (yields_text (.corrupt "meta not utf8")).bind fun metaText metaFits => Yields.pure ?_
  refine ⟨?_, labelFits, metaFits⟩
  rw [read.1]
  exact parentCount.toNat_lt

theorem yields_body (tag : UInt8) : Yields Object.Fits (readBody tag) := by
  unfold readBody
  split
  · exact (yields_any takeRest).bind fun data _ => Yields.pure trivial
  · split
    · refine (yields_any (takeU32 endOfObject)).bind fun count _ => ?_
      refine (yields_many (yields_any (takeFixed endOfObject 32)) count.toNat).bind
        fun chunks read => Yields.pure ?_
      change chunks.length < 2 ^ 32
      rw [read.1]
      exact count.toNat_lt
    · split
      · refine (yields_any (takeU32 endOfObject)).bind fun count _ => ?_
        refine (yields_many yields_entry count.toNat).bind fun entries read => Yields.pure ?_
        refine ⟨?_, read.2⟩
        rw [read.1]
        exact count.toNat_lt
      · split
        · exact yields_generation.bind fun g fits => Yields.pure fits
        · exact Yields.throw _

theorem decoded_fits (buffer : Bytes) (object : Object)
    (decoded : Object.decode buffer = .ok object) : object.Fits := by
  unfold Object.decode at decoded
  cases outcome : readObject buffer with
  | error error =>
      rw [outcome] at decoded
      cases decoded
  | ok pair =>
      rw [outcome] at decoded
      cases decoded
      exact ((yields_any (takeU8 endOfObject)).bind fun tag _ => yields_body tag) buffer _ _ outcome

theorem decode_encode_iff (object : Object) :
    Object.decode object.encode = .ok object ↔ object.Fits :=
  ⟨decoded_fits object.encode object, decode_encode_object object⟩

/-! ## Objects in a store -/

/-- Reading a plaintext that the store was offered is decoding it. -/
theorem get_decodes (ls : Lifestream) (device : Device) (object : Object)
    (sound : Sound ls.store device) (free : CollisionFree ls.store device)
    (readable : device.Readable) (stored : Stored ls.store device object.encode) :
    ls.get device (ls.store.idOf object.encode) = Object.decode object.encode := by
  have read := get_stored ls.store device object.encode sound free (readable _) stored
  simp only [Lifestream.get, read, bind, Except.bind]

theorem put_advances (ls : Lifestream) (object : Object) {device after : Device} {id : ObjectId}
    (put : ls.put object device = .ok id after) : Advances ls.store device after := by
  have advances := advances_put ls.store object.encode device
  change Advances ls.store device (finalState (ls.put object device)) at advances
  rwa [put] at advances

theorem get_put_iff (ls : Lifestream) (object : Object) (device after later : Device)
    (id : ObjectId) (put : ls.put object device = .ok id after)
    (keeps : Keeps ls.store after later) (sound : Sound ls.store later)
    (free : CollisionFree ls.store later) (readable : later.Readable) :
    ls.get later id = .ok object ↔ object.Fits := by
  obtain ⟨address, stored⟩ := put_stored ls.store object.encode device after id put
  rw [address, get_decodes ls later object sound free readable (keeps.stored stored)]
  exact decode_encode_iff object

/-- What `commit` puts, and where it leaves the disk. -/
theorem commit_puts (ls : Lifestream) (timeUnix : UInt64) (root : ObjectId)
    (parents : List ObjectId) (label : String) (device after : Device) (id : ObjectId)
    (committed : ls.commit timeUnix root parents label device = .ok id after) :
    ∃ middle, ls.put (.generation { root, parents, timeUnix, label, metaText := "" }) device =
        .ok id middle ∧ Keeps ls.store middle after := by
  simp only [Lifestream.commit, bind_apply] at committed
  split at committed
  case h_2 => cases committed
  case h_1 named middle put =>
    have kept := (set_ref_keeps ls.store headRef named middle).1.toKeeps
    cases moved : setRef headRef named middle with
    | error error later =>
        rw [moved] at committed
        cases committed
    | ok _ later =>
        rw [moved] at committed kept
        cases committed
        exact ⟨middle, put, kept⟩

/-- An object comes back from its encoding, and from a store that it was put or
committed into, exactly when each of its lengths fits its field. -/
theorem object_reads_back_iff (object : Object) :
    (Object.decode object.encode = .ok object ↔ object.Fits) ∧
    ∀ (ls : Lifestream) (device : Device), Sound ls.store device →
      (∀ after id, ls.put object device = .ok id after → CollisionFree ls.store after →
        after.Readable → (ls.get after id = .ok object ↔ object.Fits)) ∧
      ∀ timeUnix root parents label after id,
        object = .generation { root, parents, timeUnix, label, metaText := "" } →
          ls.commit timeUnix root parents label device = .ok id after →
            CollisionFree ls.store after → after.Readable →
              (ls.get after id = .ok object ↔ object.Fits) := by
  apply And.intro (decode_encode_iff object)
  intro ls device sound
  constructor
  · intro after id put free readable
    exact get_put_iff ls object device after after id put (Keeps.refl ls.store after)
      ((put_advances ls object put).sound sound) free readable
  · rintro timeUnix root parents label after id rfl committed free readable
    obtain ⟨middle, put, kept⟩ :=
      commit_puts ls timeUnix root parents label device after id committed
    exact get_put_iff ls _ device middle after id put kept
      (kept.sound ((put_advances ls _ put).sound sound)) free readable

theorem object_reads_back_iff_sample :
    ∃ id after, sampleStore.put (.tree []) Device.fresh = .ok id after ∧
      (sampleStore.get after id = .ok (.tree []) ↔ (Object.tree []).Fits) := by
  obtain ⟨id, after, put⟩ :=
    of_is_ok (sampleStore.put (.tree []) Device.fresh) (by decide)
  have written : after.written = [(Object.tree []).encode] := by
    have offered := put_written sampleStore.store (Object.tree []).encode Device.fresh
    change (finalState (sampleStore.put (.tree []) Device.fresh)).written = _ at offered
    rwa [put] at offered
  refine ⟨id, after, put, ?_⟩
  apply ((object_reads_back_iff (.tree [])).2 sampleStore Device.fresh (fresh_sound _)).1 after id put
  · intro left leftIn right rightIn _
    rw [written, List.mem_singleton] at leftIn rightIn
    exact leftIn.trans rightIn.symm
  · intro other
    rw [(put_advances sampleStore _ put).unreadable]
    rfl

/-- A generation with one parent more than its count can say. -/
def manyParents : Object :=
  .generation
    { root := FixedBytes.ofBytes 32 [], parents := List.replicate 256 (FixedBytes.ofBytes 32 [])
      timeUnix := 0, label := "", metaText := "" }

/-- Such a generation is stored, and what is read back is not it. -/
theorem many_parents_lost :
    isOk (sampleStore.put manyParents Device.fresh) = true ∧
      Object.decode manyParents.encode ≠ .ok manyParents := by
  constructor
  · have short : manyParents.encode.length ≤ maxMessage := by decide +kernel
    obtain ⟨after, put⟩ := put_succeeds sampleStore.store manyParents.encode Device.fresh rfl short
    rw [Lifestream.put, put]
    rfl
  · intro same
    have few := (decoded_fits _ _ same).1
    exact absurd few (Nat.not_lt.mpr List.length_replicate.ge)

end HorizonOs.Lifestream
