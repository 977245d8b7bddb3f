/- GID: HitConsistency/Log/ConfigurationMeta
   digest: The peers of an entry as a protobuf message of texts: what is serialised is parsed back. -/

import HitConsistency.Base.WireFields
import HitConsistency.Group.ConfigurationText
import HitConsistency.Log.Entry

set_option autoImplicit false
set_option relaxedAutoImplicit false

namespace HitConsistency.Log.ConfigurationMeta

open HitConsistency.Base.WireFields
open HitConsistency.Group.ConfigurationText
open HitConsistency.Group.Peers
open HitConsistency.Group.PeerText
open HitConsistency.Log.Entry

structure ConfigurationPBMeta where
  peers : List (List Char)
  oldPeers : List (List Char)
  deriving DecidableEq

def ConfigurationPBMeta.Plain (message : ConfigurationPBMeta) : Prop :=
  ∀ text ∈ message.peers ++ message.oldPeers,
    (∀ c ∈ text, c.toNat < 128) ∧ text.length < 2 ^ 31

/-- `SerializeToZeroCopyStream` and `ParseFromZeroCopyStream`. -/
structure MessageCodec where
  serialize : ConfigurationPBMeta → Option (List UInt8)
  parse : List UInt8 → Option ConfigurationPBMeta
  parse_serialize : ∀ (message : ConfigurationPBMeta) (data : List UInt8), message.Plain →
    serialize message = some data → parse data = some message

section Functions

variable (addresses : AddressText) (codec : MessageCodec)

/-- The status, with the data behind an ok. -/
def serializeConfigurationMeta (entry : LogEntry) : Option (Option (List UInt8)) :=
  Entry.serializeConfigurationMeta (fun peers oldPeers => codec.serialize
    ⟨peers.map (toString addresses), oldPeers.map (toString addresses)⟩) entry

/-- The constructor from a text. It is empty behind a text that is not parsed. -/
def ofText (text : List Char) : Option PeerId := (parse addresses text).map Prod.fst

/-- The status, with the entry behind an ok. Old peers that the message does not have stay
as they are in the entry. -/
def parseConfigurationMeta (data : List UInt8) (entry : LogEntry) : Option (Option LogEntry) :=
  match codec.parse data with
  | none => some none
  | some message =>
      (message.peers.mapM (ofText addresses)).bind fun peers =>
        if message.oldPeers = [] then some (some { entry with peers := some peers })
        else (message.oldPeers.mapM (ofText addresses)).map fun oldPeers =>
          some { entry with peers := some peers, oldPeers := some oldPeers }

end Functions

variable {addresses : AddressText} {codec : MessageCodec} {peers : List PeerId}

private theorem ofText_toString {id : PeerId} (h : Fits id) :
    ofText addresses (toString addresses id) = some id := by
  rw [ofText, parse_toString h]
  rfl

private theorem mapM_ofText_toString (hfits : ∀ id ∈ peers, Fits id) :
    (peers.map (toString addresses)).mapM (ofText addresses) = some peers :=
  mapM_map_of_forall fun id hid => ofText_toString (hfits id hid)

private theorem plain_toString {id : PeerId} (h : Fits id) :
    (∀ c ∈ toString addresses id, c.toNat < 128) ∧ (toString addresses id).length < 2 ^ 31 := by
  constructor
  · intro c hc
    rcases mem_toString h hc with rfl | rfl | rfl | hdigit
    · decide
    · decide
    · decide
    · simp only [Char.isDigit, Bool.and_eq_true, decide_eq_true_eq] at hdigit
      have hle := UInt32.le_iff_toNat_le.mp hdigit.2
      exact lt_of_le_of_lt hle (by decide)
  · have hlength : (toString addresses id).length ≤ 127 := List.length_take_le _ _
    omega

private theorem parse_serialized {entry fresh : LogEntry} {data : List UInt8}
    (hpeers : entry.peers = some peers) (hold : entry.oldPeers ≠ some [])
    (hfits : ∀ id ∈ peers ++ entry.oldPeers.getD [], Fits id)
    (hdata : serializeConfigurationMeta addresses codec entry = some (some data))
    (hfresh : fresh.oldPeers = none) :
    parseConfigurationMeta addresses codec data fresh =
      some (some { fresh with peers := entry.peers, oldPeers := entry.oldPeers }) := by
  rw [serializeConfigurationMeta, Entry.serializeConfigurationMeta, hpeers, Option.map_some,
    Option.some_inj] at hdata
  have hplain : ConfigurationPBMeta.Plain
      ⟨peers.map (toString addresses), (entry.oldPeers.getD []).map (toString addresses)⟩ := by
    intro text htext
    rw [← List.map_append] at htext
    obtain ⟨id, hid, rfl⟩ := List.mem_map.mp htext
    exact plain_toString (hfits id hid)
  have hfront : (peers.map (toString addresses)).mapM (ofText addresses) = some peers :=
    mapM_ofText_toString fun id hid => hfits id (by simp [hid])
  have hback : ((entry.oldPeers.getD []).map (toString addresses)).mapM (ofText addresses) =
      some (entry.oldPeers.getD []) :=
    mapM_ofText_toString fun id hid => hfits id (List.mem_append_right _ hid)
  rw [parseConfigurationMeta, codec.parse_serialize _ _ hplain hdata]
  dsimp only
  rw [hfront, Option.bind_some, hpeers]
  cases hentry : entry.oldPeers with
  | none =>
    rw [Option.getD_none, List.map_nil, if_pos rfl, ← hfresh]
  | some old =>
    have hne : old ≠ [] := fun hnil => hold (by rw [hentry, hnil])
    rw [hentry, Option.getD_some] at hback
    rw [Option.getD_some, if_neg (by simpa using hne), hback]
    rfl

/-- Configurations survive as text, and the peers of an entry as a message. -/
theorem configuration_round_trips (addresses : AddressText) (splitter : FieldSplitter)
    (codec : MessageCodec) :
    (∀ conf : Configuration, (∀ id ∈ conf.peers, Fits id) →
      parseFrom addresses splitter (print addresses conf) = some (conf, true)) ∧
    ∀ (entry fresh : LogEntry) (peers : List PeerId) (data : List UInt8),
      entry.peers = some peers → entry.oldPeers ≠ some [] →
        (∀ id ∈ peers ++ entry.oldPeers.getD [], Fits id) →
          serializeConfigurationMeta addresses codec entry = some (some data) →
            fresh.oldPeers = none →
              parseConfigurationMeta addresses codec data fresh =
                some (some { fresh with peers := entry.peers, oldPeers := entry.oldPeers }) :=
  ⟨fun _ hfits => parseFrom_print hfits,
    fun _ _ _ _ hpeers hold hfits hdata hfresh =>
      parse_serialized hpeers hold hfits hdata hfresh⟩

section Wire

private def textFields (tag : UInt8) (texts : List (List Char)) : List (UInt8 × List UInt8) :=
  texts.map fun text => (tag, textBytes text)

private def fieldTexts (tag : UInt8) (fields : List (UInt8 × List UInt8)) : List (List Char) :=
  (fields.filter fun field => field.1 = tag).map fun field => bytesText field.2

private theorem fieldTexts_textFields (tag : UInt8) {texts : List (List Char)}
    (hascii : ∀ text ∈ texts, ∀ c ∈ text, c.toNat < 128) :
    fieldTexts tag (textFields tag texts) = texts := by
  induction texts with
  | nil => rfl
  | cons text rest ih =>
    have hrest := ih fun other hother => hascii other (by simp [hother])
    have htext := bytesText_textBytes (hascii text (by simp))
    simp only [fieldTexts, textFields] at hrest ⊢
    simp [htext, hrest]

private theorem fieldTexts_other {tag other : UInt8} (hne : other ≠ tag)
    (texts : List (List Char)) : fieldTexts tag (textFields other texts) = [] := by
  simp [fieldTexts, textFields, List.filter_map, Function.comp_def, hne]

private theorem fieldTexts_append (tag : UInt8) (front back : List (UInt8 × List UInt8)) :
    fieldTexts tag (front ++ back) = fieldTexts tag front ++ fieldTexts tag back := by
  simp [fieldTexts]

/-- Peers under tag 1, old peers under tag 2. -/
def wire : MessageCodec where
  serialize message :=
    some (writeFields (textFields 0x0a message.peers ++ textFields 0x12 message.oldPeers))
  parse data := (scanFields data.length data).map fun fields =>
    ⟨fieldTexts 0x0a fields, fieldTexts 0x12 fields⟩
  parse_serialize := by
    rintro ⟨peers, oldPeers⟩ data hplain hdata
    cases hdata
    have hshort : ∀ field ∈ textFields 0x0a peers ++ textFields 0x12 oldPeers,
        field.2.length < 128 ^ 10 := by
      intro field hfield
      simp only [textFields, List.mem_append, List.mem_map] at hfield
      rcases hfield with ⟨text, htext, rfl⟩ | ⟨text, htext, rfl⟩
      · have hlength := (hplain text (List.mem_append_left _ htext)).2
        rw [length_textBytes]
        omega
      · have hlength := (hplain text (List.mem_append_right _ htext)).2
        rw [length_textBytes]
        omega
    have hpeers := fieldTexts_textFields 0x0a fun text htext =>
      (hplain text (List.mem_append_left _ htext)).1
    have hold := fieldTexts_textFields 0x12 fun text htext =>
      (hplain text (List.mem_append_right _ htext)).1
    have hfront := fieldTexts_other (show (0x0a : UInt8) ≠ 0x12 by decide) peers
    have hback := fieldTexts_other (show (0x12 : UInt8) ≠ 0x0a by decide) oldPeers
    rw [scanFields_writeFields hshort (length_le_writeFields _), Option.map_some]
    rw [fieldTexts_append, fieldTexts_append, hpeers, hback, hfront, hold, List.append_nil,
      List.nil_append]

private def trio : Configuration :=
  .ofPeers [⟨0x7f000001, 8000, 0⟩, ⟨0x0a000001, -1, -7⟩, ⟨0, 0, 0⟩]

private def jointEntry : LogEntry :=
  ⟨.configuration, ⟨1, 1⟩, 0, some [⟨0x7f000001, 8000, 0⟩, ⟨0x0a000001, 8001, 2⟩],
    some [⟨0x7f000001, 8000, 0⟩], []⟩

/-- Three peers, one of them with negative numbers, and the entry of a joint configuration. -/
theorem configuration_round_trips_joint :
    parseFrom dottedDecimals .skipEmpty (print dottedDecimals trio) = some (trio, true) ∧
      ∃ data, serializeConfigurationMeta dottedDecimals wire jointEntry = some (some data) ∧
        parseConfigurationMeta dottedDecimals wire data ⟨.unknown, .zero, 0, none, none, []⟩ =
          some (some ⟨.unknown, .zero, 0, jointEntry.peers, jointEntry.oldPeers, []⟩) := by
  obtain ⟨htext, hmessage⟩ := configuration_round_trips dottedDecimals .skipEmpty wire
  exact ⟨htext trio (by decide), _, rfl,
    hmessage jointEntry _ _ _ rfl (by decide) (by decide) rfl rfl⟩

end Wire

end HitConsistency.Log.ConfigurationMeta
