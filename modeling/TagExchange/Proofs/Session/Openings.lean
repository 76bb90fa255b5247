import TagExchange.Connection
import TagExchange.Proofs.RoundTrip.Messages

/-!
# What a node says when a connection opens

The openings of a node are well formed and always fit into a frame, so its peer reads them back
(`Connection.opening_wellFormed`, `Connection.opening_frame`). Under version 4 both give a hold
time; only a speaker gives an id, and only a listener its capabilities.
-/

namespace TagExchange

theorem NodeConfig.holdTime_constructed {config : NodeConfig} {mode : Mode} {h : HoldTime}
    (hh : config.holdTime mode = .ok h) : h.Constructed := by
  cases mode with
  | speaker => exact .inl ⟨_, hh⟩
  | listener | both => exact .inr ⟨_, _, hh⟩

namespace Attribute

/-- A small value in an attribute that every node understands takes the shortest header. -/
theorem bytes_wellKnown {v : AttributeValue} (hcode : v.code ≤ 255) (hsize : v.bytes.length ≤ 255) :
    ∃ bs, (wellKnown v).bytes = .ok bs ∧ bs.length = v.bytes.length + 3 := by
  have hlayout : Layout.for (Flags.wellKnown &&& ~~~Flags.extended) v.bytes.length = .compact := by
    have hcompact : Flags.has (Flags.wellKnown &&& ~~~Flags.extended) Flags.compact = true := by
      decide
    simp [Layout.for, hcompact]
    omega
  have hheader : header (Flags.wellKnown &&& ~~~Flags.extended) v.code v.bytes.length =
      .ok ((Flags.wellKnown &&& ~~~Flags.extended) :: wordBytes 1 v.code ++
        wordBytes 1 v.bytes.length) := by
    rw [header, hlayout]
    exact if_neg (by omega)
  rw [bytes, wellKnown, of, hheader]
  refine ⟨_, rfl, ?_⟩
  simp
  omega

theorem listBytes_wellKnown {values : List AttributeValue} {size : Nat} (hsize : size ≤ 255)
    (h : ∀ v ∈ values, v.code ≤ 255 ∧ v.bytes.length ≤ size) :
    ∃ bs, listBytes (values.map wellKnown) = .ok bs ∧ bs.length ≤ values.length * (size + 3) := by
  induction values with
  | nil => exact ⟨[], rfl, by simp⟩
  | cons v values ih =>
    obtain ⟨hcode, hlen⟩ := h v (by simp)
    obtain ⟨front, hfront, hfrontLen⟩ := bytes_wellKnown hcode (by omega)
    obtain ⟨back, hback, hbackLen⟩ := ih fun w hw => h w (by simp [hw])
    refine ⟨front ++ back, ?_, ?_⟩
    · rw [List.map_cons, listBytes, hfront]
      show (listBytes (values.map wellKnown) >>= _) = _
      rw [hback]
      rfl
    · rw [List.length_append, List.length_cons, Nat.add_mul]
      omega

end Attribute

namespace Opening

/-- The values in an opening of version 4. -/
def values (mode : Mode) (id : NodeId) (holdTime : Option HoldTime) : List AttributeValue :=
  (if mode.isSpeaker then [.nodeId id] else []) ++
    (if mode.isListener then [.capabilities (Capability.ofVersion .v4)] else []) ++
    holdTime.toList.map .holdTime

theorem of_v4 (mode : Mode) (id : NodeId) (holdTime : Option HoldTime) :
    of .v4 mode id holdTime = ⟨.v4, mode, (values mode id holdTime).map .wellKnown⟩ := by
  cases mode <;> cases holdTime <;> rfl

variable {mode : Mode} {id : NodeId} {holdTime : Option HoldTime}

theorem values_size {v : AttributeValue} (hv : v ∈ values mode id holdTime) :
    v.code ≤ 255 ∧ v.bytes.length ≤ 6 := by
  simp only [values, List.mem_append, List.mem_map, List.mem_ite_nil_right, List.mem_singleton,
    Option.mem_toList] at hv
  rcases hv with (⟨-, rfl⟩ | ⟨-, rfl⟩) | ⟨h, -, rfl⟩
  · exact ⟨by simp [AttributeValue.code, AttributeKind.code], by simp [AttributeValue.bytes]⟩
  · exact ⟨by decide, by decide⟩
  · refine ⟨by simp [AttributeValue.code, AttributeKind.code], ?_⟩
    simp only [AttributeValue.bytes, HoldTime.bytes]
    split <;> simp

theorem length_values : (values mode id holdTime).length ≤ 3 := by
  cases mode <;> cases holdTime <;> simp [values, Mode.isSpeaker, Mode.isListener]

theorem values_wellFormed (hh : ∀ h, holdTime = some h → h.Constructed) {v : AttributeValue}
    (hv : v ∈ values mode id holdTime) : v.WellFormed := by
  simp only [values, List.mem_append, List.mem_map, List.mem_ite_nil_right, List.mem_singleton,
    Option.mem_toList] at hv
  rcases hv with (⟨-, rfl⟩ | ⟨-, rfl⟩) | ⟨h, hmem, rfl⟩
  · trivial
  · trivial
  · exact hh h hmem

theorem holdTime?_of : (of .v4 mode id holdTime).holdTime? = holdTime := by
  cases mode <;> cases holdTime <;> rfl

theorem nodeId?_of :
    (of .v4 mode id holdTime).nodeId? = if mode.isSpeaker then some id else none := by
  cases mode <;> cases holdTime <;> rfl

/-- A listener lists its capabilities. -/
theorem declared_of (hmode : mode.isListener = true) :
    (of .v4 mode id holdTime).declared = .ok (Capability.ofVersion .v4) := by
  cases mode with
  | speaker => cases hmode
  | listener | both => rfl

/-- A speaker does not. -/
theorem declared_of_speaker (hmode : ¬mode.isListener = true) :
    ∃ f, (of .v4 mode id holdTime).declared = .error f := by
  cases mode with
  | speaker => cases holdTime <;> exact ⟨_, rfl⟩
  | listener | both => exact absurd rfl hmode

end Opening

namespace Connection

variable {c : Connection} {v : Version} {o : Opening}

/-- An opening gives the version and the mode, and from version 4 on a hold time as the settings
have it. -/
theorem opening_eq_ok (h : c.opening v = .ok o) : ∃ holdTime, o = .of v c.mode c.localId holdTime ∧
    (v = .v4 → ∃ range, c.config.holdTime c.mode = .ok range ∧ holdTime = some range) := by
  cases v with
  | v1 | v2 | v3 =>
    cases h
    exact ⟨none, rfl, nofun⟩
  | v4 =>
    obtain ⟨holdTime, hholdTime, h⟩ := Except.bind_eq_ok.1 h
    cases h
    refine ⟨holdTime, rfl, fun _ => ?_⟩
    obtain ⟨range, hrange, rfl⟩ := Except.map_eq_ok.1 hholdTime
    exact ⟨range, hrange, rfl⟩

theorem opening_version (h : c.opening v = .ok o) : o.version = v := by
  obtain ⟨holdTime, rfl, -⟩ := opening_eq_ok h
  rfl

theorem opening_mode (h : c.opening v = .ok o) : o.mode = c.mode := by
  obtain ⟨holdTime, rfl, -⟩ := opening_eq_ok h
  rfl

/-- Under version 4 a connection gives the hold time of its settings. -/
theorem opening_holdTime? (h : c.opening .v4 = .ok o) :
    ∃ range, c.config.holdTime c.mode = .ok range ∧ o.holdTime? = some range := by
  obtain ⟨holdTime, rfl, hrange⟩ := opening_eq_ok h
  obtain ⟨range, hconfig, rfl⟩ := hrange rfl
  exact ⟨range, hconfig, Opening.holdTime?_of⟩

theorem opening_nodeId? (h : c.opening v = .ok o) :
    o.nodeId? = none ∨ o.nodeId? = some c.localId := by
  obtain ⟨holdTime, rfl, -⟩ := opening_eq_ok h
  cases v with
  | v1 | v2 | v3 => exact .inl rfl
  | v4 =>
    rw [Opening.nodeId?_of]
    split
    · exact .inr rfl
    · exact .inl rfl

theorem opening_wellFormed (h : c.opening v = .ok o) : o.WellFormed := by
  obtain ⟨holdTime, rfl, hrange⟩ := opening_eq_ok h
  cases v with
  | v1 | v2 | v3 => exact ⟨fun _ => rfl, fun a ha => by cases ha⟩
  | v4 =>
    obtain ⟨range, hconfig, rfl⟩ := hrange rfl
    rw [Opening.of_v4]
    refine ⟨nofun, ?_⟩
    intro a ha
    obtain ⟨value, hvalue, rfl⟩ := List.mem_map.1 ha
    apply Attribute.wellFormed_of
    apply Opening.values_wellFormed _ hvalue
    rintro _ ⟨⟩
    exact NodeConfig.holdTime_constructed hconfig

/-- The payload of an opening is far below the limit. -/
theorem opening_bytes (h : c.opening v = .ok o) : ∃ bs, o.bytes = .ok bs ∧ bs.length ≤ 35 := by
  obtain ⟨holdTime, rfl, -⟩ := opening_eq_ok h
  cases v with
  | v1 | v2 | v3 => exact ⟨_, rfl, by simp⟩
  | v4 =>
    let values := Opening.values c.mode c.localId holdTime
    obtain ⟨bs, hbs, hlen⟩ : ∃ bs, Attribute.listBytes (values.map .wellKnown) = .ok bs ∧
        bs.length ≤ values.length * (6 + 3) :=
      Attribute.listBytes_wellKnown (by decide) fun value hvalue => Opening.values_size hvalue
    have hcount : values.length ≤ 3 := Opening.length_values
    rw [Opening.of_v4, Opening.bytes, if_neg (by simp [Version.isLegacy]), hbs]
    refine ⟨_, rfl, ?_⟩
    simp only [List.length_append, length_wordBytes]
    omega

theorem opening_frame (h : c.opening v = .ok o) {m : Message} (hm : m = .opening o ∨ m = .reply o) :
    ∃ bs, m.frame = .ok bs := by
  obtain ⟨bs, hbs, hlen⟩ := opening_bytes h
  have hfits : ¬ headerSize + bs.length < headerSize ∧
      ¬ messageLimit < headerSize + bs.length := by
    simp only [headerSize, messageLimit]
    omega
  have hframe (type : MessageType) : ∃ out, frame type bs = .ok out := by
    refine ⟨(Header.mk (headerSize + bs.length) type).bytes ++ bs, ?_⟩
    simp [frame, Header.of?, hfits, Except.map]
  rcases hm with rfl | rfl
  · obtain ⟨out, hout⟩ := hframe .opening
    exact ⟨out, Except.bind_eq_ok.2 ⟨bs, hbs, hout⟩⟩
  · obtain ⟨out, hout⟩ := hframe .reply
    exact ⟨out, Except.bind_eq_ok.2 ⟨bs, hbs, hout⟩⟩

end Connection

end TagExchange
