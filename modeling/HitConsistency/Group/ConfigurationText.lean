/- GID: HitConsistency/Group/ConfigurationText
   digest: Configurations as text: peers behind commas, printed and parsed back. -/

import HitConsistency.Group.PeerText

set_option autoImplicit false
set_option relaxedAutoImplicit false

namespace HitConsistency.Group.ConfigurationText

open HitConsistency.Base.DecimalText
open HitConsistency.Group.Peers
open HitConsistency.Group.PeerText

/-- `StringSplitter` of the base library: the fields between separators; empty fields are
skipped. -/
structure FieldSplitter where
  fields : List Char → Char → List (List Char)
  fields_eq : ∀ text sep, fields text sep = (text.splitOn sep).filter (· ≠ [])

def FieldSplitter.skipEmpty : FieldSplitter :=
  ⟨fun text sep => (text.splitOn sep).filter (· ≠ []), fun _ _ => rfl⟩

section Print

variable (addresses : AddressText)

/-- `operator<<` of a peer. A stream has no end, unlike the buffer of `to_string`. -/
def printPeer (id : PeerId) : List Char :=
  endpoint2str addresses id.ip id.port ++ ':' :: decimal id.idx

/-- The loop of `operator<<`: a comma behind every peer but the last. -/
def printPeers : List PeerId → List Char
  | [] => []
  | id :: rest => printPeer addresses id ++ ((if rest = [] then [] else [',']) ++ printPeers rest)

/-- `operator<<` of a configuration. -/
def print (conf : Configuration) : List Char := printPeers addresses conf.peers

/-- The loop of `parse_from`. A field that is no peer ends it with -1. -/
def parseFields : Configuration → List (List Char) → Option (Configuration × Bool)
  | conf, [] => some (conf, true)
  | conf, field :: rest =>
      (parse addresses field).bind fun (peer, ok) =>
        if ok then parseFields (conf.addPeer peer) rest else some (conf, false)

/-- `parse_from`: the configuration behind it, and whether the result is 0. It is reset
first, so what it was does not count. -/
def parseFrom (splitter : FieldSplitter) (conf : List Char) : Option (Configuration × Bool) :=
  parseFields addresses .none (splitter.fields conf ',')

end Print

variable {addresses : AddressText} {splitter : FieldSplitter}

section Peers

private theorem printPeer_eq {id : PeerId} (h : Fits id) :
    printPeer addresses id = toString addresses id := by
  have hlength : (printPeer addresses id).length ≤ 39 := length_printed h
  exact (List.take_of_length_le (by omega)).symm

private theorem parse_printPeer {id : PeerId} (h : Fits id) :
    parse addresses (printPeer addresses id) = some (id, true) := by
  rw [printPeer_eq h, parse_toString h]

private theorem comma_notMem_printPeer {id : PeerId} (h : Fits id) :
    ',' ∉ printPeer addresses id := by
  rw [printPeer_eq h]
  intro hmem
  rcases mem_toString h hmem with hc | hc | hc | hc <;> exact absurd hc (by decide)

private theorem printPeer_ne_nil (id : PeerId) : printPeer addresses id ≠ [] := by
  intro h
  have hright := (List.append_eq_nil_iff.mp h).2
  cases hright

end Peers

section Fields

theorem printPeers_eq (peers : List PeerId) :
    printPeers addresses peers = [','].intercalate (peers.map (printPeer addresses)) := by
  induction peers with
  | nil => rfl
  | cons id rest ih =>
    rw [printPeers, ih]
    cases rest with
    | nil => simp
    | cons next rest => simp [List.intercalate_cons_cons]

private theorem fields_printPeers {peers : List PeerId} (hfits : ∀ id ∈ peers, Fits id) :
    splitter.fields (printPeers addresses peers) ',' = peers.map (printPeer addresses) := by
  rw [splitter.fields_eq]
  cases peers with
  | nil => rfl
  | cons id rest =>
    have hcomma : ∀ text ∈ (id :: rest).map (printPeer addresses), ',' ∉ text := by
      intro text htext
      obtain ⟨other, hother, rfl⟩ := List.mem_map.mp htext
      exact comma_notMem_printPeer (hfits other hother)
    rw [printPeers_eq, List.splitOn_intercalate ',' hcomma (by simp), List.filter_eq_self]
    intro text htext
    obtain ⟨other, -, rfl⟩ := List.mem_map.mp htext
    exact decide_eq_true (printPeer_ne_nil other)

private theorem parseFields_printed {peers : List PeerId} (hfits : ∀ id ∈ peers, Fits id)
    (conf : Configuration) :
    parseFields addresses conf (peers.map (printPeer addresses)) =
      some (peers.foldl Configuration.addPeer conf, true) := by
  induction peers generalizing conf with
  | nil => rfl
  | cons id rest ih =>
    rw [List.map_cons, parseFields, parse_printPeer (hfits id (by simp))]
    exact ih (fun other hother => hfits other (by simp [hother])) (conf.addPeer id)

end Fields

section Order

theorem eq_of_mem_iff {a b : Configuration} (h : ∀ id, id ∈ a.peers ↔ id ∈ b.peers) : a = b := by
  have hperm : a.peers.Perm b.peers := (List.perm_ext_iff_of_nodup a.nodup b.nodup).mpr h
  have hantisymm : ∀ p q, p ∈ a.peers → q ∈ b.peers → PeerId.Before p q → PeerId.Before q p →
      p = q := by
    intro p q _ _ hpq hqp
    exact absurd (hpq.trans hqp) (PeerId.Before.irrefl p)
  have hpeers : a.peers = b.peers := hperm.eq_of_pairwise hantisymm a.ordered b.ordered
  cases a
  cases b
  cases hpeers
  rfl

private theorem foldl_addPeer_peers (conf : Configuration) :
    conf.peers.foldl Configuration.addPeer .none = conf := by
  apply eq_of_mem_iff
  intro id
  rw [Configuration.mem_foldl_addPeer]
  simp [Configuration.none]

end Order

theorem parseFrom_print {conf : Configuration} (hfits : ∀ id ∈ conf.peers, Fits id) :
    parseFrom addresses splitter (print addresses conf) = some (conf, true) := by
  rw [parseFrom, print, fields_printPeers hfits, parseFields_printed hfits, foldl_addPeer_peers]

end HitConsistency.Group.ConfigurationText
