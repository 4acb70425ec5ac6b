import MeshSharding.Wire.Message
import MeshSharding.Proofs.Wire.Value

/-! Messages round trip. Their fields have different numbers, so each field is read as it has
been written, and the messages in a message are read back before it. -/
namespace MeshSharding
namespace Wire

open Fields

theorem WindowMessage.roundTrips : RoundTrips WindowMessage.fields WindowMessage.read where
  writable m := (writable_ofWord (by decide) _).append (writable_ofWord (by decide) _)
  read_fields _ m _ := by
    have hpreSize : m.fields.word 1 = some m.preSize := word_eq_some (by simp [fields])
    have hsize : m.fields.word 2 = some m.size := word_eq_some (by simp [fields])
    simp [read, hpreSize, hsize]

theorem AxisMessage.roundTrips : RoundTrips AxisMessage.fields AxisMessage.read where
  writable m := (writable_ofString (by decide) _).append (writable_ofMessages (by decide) _ _)
  read_fields limit m hl := by
    have hname : m.fields.string 1 = some m.name := string_eq_some (by simp [fields])
    have hwindow : m.fields.message? WindowMessage.read limit 2 = some m.window :=
      WindowMessage.roundTrips.message?_eq_some limit (by simp [fields]) hl
    simp [read, hname, hwindow]

theorem DimMessage.roundTrips : RoundTrips DimMessage.fields DimMessage.read where
  writable m := ((writable_ofMessages (by decide) _ _).append
    (writable_ofBool (by decide) _)).append (writable_ofOptionalWord (by decide) _)
  read_fields limit m hl := by
    have haxes : m.fields.messages AxisMessage.read limit 1 = some m.axes :=
      AxisMessage.roundTrips.messages_eq_some limit (by simp [fields]) hl
    have hclosed : m.fields.bool 2 = some m.closed := bool_eq_some (by simp [fields])
    have hpriority : m.fields.optionalWord 3 = some m.priority :=
      optionalWord_eq_some (by simp [fields])
    simp [read, haxes, hclosed, hpriority]

namespace ShardingMessage

theorem writable_fields (m : ShardingMessage) : m.fields.Writable :=
  (((writable_ofString (by decide) _).append (writable_ofMessages (by decide) _ _)).append
    (writable_ofMessages (by decide) _ _)).append (writable_ofMessages (by decide) _ _)

theorem roundTrips : RoundTrips ShardingMessage.fields ShardingMessage.read where
  writable := writable_fields
  read_fields limit m hl := by
    have hname : m.fields.string 1 = some m.meshName := string_eq_some (by simp [fields])
    have hdims : m.fields.messages DimMessage.read limit 2 = some m.dims :=
      DimMessage.roundTrips.messages_eq_some limit (by simp [fields]) hl
    have hreplicated : m.fields.messages AxisMessage.read limit 3 = some m.replicated :=
      AxisMessage.roundTrips.messages_eq_some limit (by simp [fields]) hl
    have hunreduced : m.fields.messages AxisMessage.read limit 4 = some m.unreduced :=
      AxisMessage.roundTrips.messages_eq_some limit (by simp [fields]) hl
    simp [read, hname, hdims, hreplicated, hunreduced]

/-- A reader of the first version misses the unreduced axes only. -/
theorem readFirst_fields (limit : Nat) {m : ShardingMessage} (hm : m.unreduced = [])
    (hl : (writeFields m.fields).length < wordBound) : readFirst limit m.fields = some m := by
  have hfilter : m.fields.filter (fun f => f.number ≠ 4) = m.fields := by
    refine List.filter_eq_self.2 fun f hf => ?_
    have hnot : f.payload ∉ m.fields.payloads 4 := by simp [fields, hm]
    rw [mem_payloads] at hnot
    simp only [decide_eq_true_eq]
    rintro hnumber
    exact hnot (hnumber ▸ hf)
  rw [readFirst, hfilter, roundTrips.read_fields limit m hl]

end ShardingMessage

theorem MeshAxisMessage.roundTrips :
    RoundTrips MeshAxisMessage.fields MeshAxisMessage.read where
  writable m := (writable_ofString (by decide) _).append (writable_ofWord (by decide) _)
  read_fields _ m _ := by
    have hname : m.fields.string 1 = some m.name := string_eq_some (by simp [fields])
    have hsize : m.fields.word 2 = some m.size := word_eq_some (by simp [fields])
    simp [read, hname, hsize]

theorem MeshMessage.roundTrips : RoundTrips MeshMessage.fields MeshMessage.read where
  writable m := (writable_ofMessages (by decide) _ _).append (writable_ofWords (by decide) _)
  read_fields limit m hl := by
    have haxes : m.fields.messages MeshAxisMessage.read limit 1 = some m.axes :=
      MeshAxisMessage.roundTrips.messages_eq_some limit (by simp [fields]) hl
    have hids : m.fields.words 2 = some m.deviceIds := words_eq_some (by simp [fields])
    simp [read, haxes, hids]

theorem DimMappingMessage.roundTrips :
    RoundTrips DimMappingMessage.fields DimMappingMessage.read where
  writable m := writable_ofWords (by decide) _
  read_fields _ m _ := by
    have hfactors : m.fields.words 1 = some m.factors := words_eq_some rfl
    simp [read, hfactors]

theorem MappingMessage.roundTrips : RoundTrips MappingMessage.fields MappingMessage.read where
  writable m := writable_ofMessages (by decide) _ _
  read_fields limit m hl := by
    have hdims : m.fields.messages DimMappingMessage.read limit 1 = some m.dims :=
      DimMappingMessage.roundTrips.messages_eq_some limit rfl hl
    simp [read, hdims]

theorem RuleMessage.roundTrips : RoundTrips RuleMessage.fields RuleMessage.read where
  writable m := (((((((writable_ofWords (by decide) _).append
    (writable_ofMessages (by decide) _ _)).append (writable_ofMessages (by decide) _ _)).append
    (writable_ofWords (by decide) _)).append (writable_ofWords (by decide) _)).append
    (writable_ofWords (by decide) _)).append (writable_ofWords (by decide) _)).append
    (writable_ofBool (by decide) _)
  read_fields limit m hl := by
    have hsizes : m.fields.words 1 = some m.sizes := words_eq_some (by simp [fields])
    have hoperands : m.fields.messages MappingMessage.read limit 2 = some m.operands :=
      MappingMessage.roundTrips.messages_eq_some limit (by simp [fields]) hl
    have hresults : m.fields.messages MappingMessage.read limit 3 = some m.results :=
      MappingMessage.roundTrips.messages_eq_some limit (by simp [fields]) hl
    have hreduction : m.fields.words 4 = some m.reduction := words_eq_some (by simp [fields])
    have hneed : m.fields.words 5 = some m.needReplication := words_eq_some (by simp [fields])
    have hpermutation : m.fields.words 6 = some m.permutation :=
      words_eq_some (by simp [fields])
    have hblocked : m.fields.words 7 = some m.blocked := words_eq_some (by simp [fields])
    have hcustom : m.fields.bool 8 = some m.custom := bool_eq_some (by simp [fields])
    simp [read, hsizes, hoperands, hresults, hreduction, hneed, hpermutation, hblocked, hcustom]

theorem MoveMessage.roundTrips : RoundTrips MoveMessage.fields MoveMessage.read where
  writable m := ((writable_ofMessages (by decide) _ _).append
    (writable_ofWord (by decide) _)).append (writable_ofWord (by decide) _)
  read_fields limit m hl := by
    have haxes : m.fields.messages AxisMessage.read limit 1 = some m.axes :=
      AxisMessage.roundTrips.messages_eq_some limit (by simp [fields]) hl
    have hsource : m.fields.word 2 = some m.source := word_eq_some (by simp [fields])
    have htarget : m.fields.word 3 = some m.target := word_eq_some (by simp [fields])
    simp [read, haxes, hsource, htarget]

theorem MovesMessage.roundTrips : RoundTrips MovesMessage.fields MovesMessage.read where
  writable m := writable_ofMessages (by decide) _ _
  read_fields limit m hl := by
    have hmoves : m.fields.messages MoveMessage.read limit 1 = some m.moves :=
      MoveMessage.roundTrips.messages_eq_some limit rfl hl
    simp [read, hmoves]

/-- The upper bits of a kind, which are those of its sign, are not taken. -/
theorem ofNat_unsigned_toInt64 (x : Int32) : Int32.ofNat (unsigned x.toInt64) = x := by
  have h : (x.toBitVec.signExtend 64).setWidth 32 = x.toBitVec := by
    refine BitVec.eq_of_getLsbD_eq fun i hi => ?_
    simp only [BitVec.getLsbD_setWidth, BitVec.getLsbD_signExtend, hi, decide_true,
      Bool.true_and, if_true]
    simp only [Bool.and_eq_right_iff_imp, decide_eq_true_eq]
    omega
  exact congrArg (fun b => Int32.ofUInt32 ⟨b⟩) h

theorem Record.roundTrips : RoundTrips Record.fields Record.read where
  writable r := ((writable_ofWord (by decide) _).append (writable_ofNumber (by decide)
    (Nat.lt_trans r.version.toNat_lt (by decide)))).append (writable_ofBytes (by decide) _)
  read_fields _ r _ := by
    have hkind : r.fields.number 1 = some (unsigned r.kind.toInt64) :=
      number_eq_some (by simp [fields, ofWord])
    have hversion : r.fields.number 2 = some r.version.toNat := number_eq_some (by simp [fields])
    have hpayload : r.fields.bytes 3 = some r.payload := bytes_eq_some (by simp [fields])
    simp [read, hkind, hversion, hpayload, ofNat_unsigned_toInt64]

end Wire
end MeshSharding
