import Brust.Frames.Fetch

/-!
# Frames — the pages of Redis

`encodeFrame` and `decodeFrame`: a page as one string, the length of its meta, the meta and the
body.  The numbers of a meta are read as JavaScript reads them, to the double next to the numeral.
What `encodeFrame` writes is read back (`decodeFrame_encodeFrame`).
-/

namespace Brust.Frames

open Brust.Core Brust.Core.Path Brust.Cloudflare.Kv Brust.SortedMap

/-- What `encodeFrame` is given besides the page. -/
structure FrameInfo where
  entryStamp : Option ℕ
  storedAt : ℕ
  tags : List String
  method : String
  path : String

def frameMeta (page : StoredPage) (m : FrameInfo) : JsonValue :=
  .obj [("v", count 1), ("status", count page.status), ("headers", headerPairs page.headers),
    ("entryStamp", stampValue m.entryStamp), ("storedAt", count m.storedAt), ("tags", texts m.tags),
    ("method", .str m.method), ("path", .str m.path)]

def encodeFrame (page : StoredPage) (m : FrameInfo) : Bytes :=
  framed Plan.leBytes (encodeJson (frameMeta page m)) page.body

structure DecodedFrame where
  status : Double
  headers : JsonValue
  body : Bytes
  entryStamp : Option Double
  storedAt : Double

/-- A page, none where the frame's version is another, or what was thrown. -/
def decodeFrame (js : JsonReader) (buf : Bytes) : Except String (Option DecodedFrame) :=
  if buf.length < 4 then .error "cache-redis: truncated page frame"
  else
    let len := getUint32 buf
    if buf.length < 4 + len then .error "cache-redis: page frame meta length exceeds the frame"
    else
      match js.parse ((buf.drop 4).take len) with
      | none | some .null => .error (js.refusal ((buf.drop 4).take len))
      | some info =>
        if (member info "v").bind asNumber ≠ some (.fin false 1) then .ok none
        else
          match (member info "status").bind asNumber, (member info "headers").filter isList with
          | some status, some headers => .ok (some
              { status, headers, body := buf.drop (4 + len)
                entryStamp := (member info "entryStamp").bind asNumber
                storedAt := ((member info "storedAt").bind asNumber).getD (.fin false 0) })
          | _, _ => .error "cache-redis: corrupt page frame meta"

/-! ### Numbers -/

theorem asNumber_stampValue {stamp : Option ℕ} (h : ∀ n ∈ stamp, n < 2 ^ 53) :
    asNumber (stampValue stamp) = stamp.map fun n : ℕ => .fin false n := by
  cases stamp with
  | none => rfl
  | some n => exact asNumber_count (h n rfl)

/-! ### Reading a frame back -/

/-- The numbers of a meta are those of JavaScript's integers. -/
structure FrameInfo.Safe (page : StoredPage) (m : FrameInfo) : Prop where
  status : page.status < 2 ^ 53
  entryStamp : ∀ n ∈ m.entryStamp, n < 2 ^ 53
  storedAt : m.storedAt < 2 ^ 53

/-- **A page of Redis is read back**, where its meta's length fits the four bytes in front of it. -/
theorem decodeFrame_encodeFrame {js : JsonReader} (hreads : js.Reads (2 ^ 64)) {page : StoredPage}
    {m : FrameInfo} (hsafe : m.Safe page)
    (hfits : (encodeJson (frameMeta page m)).length < 2 ^ 32) :
    decodeFrame js (encodeFrame page m) = .ok (some
      ⟨.fin false page.status, headerPairs page.headers, page.body,
        m.entryStamp.map fun n : ℕ => .fin false n, .fin false m.storedAt⟩) := by
  have hframe := unframe_framed lengthCode hfits page.body
  obtain ⟨hlen, -, htotal⟩ := unframe_eq_some hframe
  rw [unframe, if_neg (by omega), if_neg (by omega)] at hframe
  obtain ⟨hinfo, hbody⟩ := Prod.mk.inj (Option.some.inj hframe)
  have hparse : js.parse (encodeJson (frameMeta page m)) = some (frameMeta page m) := by
    refine hreads.read _ ?_
    have hstatus := hsafe.status
    have hstored := hsafe.storedAt
    simp only [List.forall_mem_cons]
    exact ⟨simple_count (by decide), simple_count (by omega), simple_headerPairs _ _,
      simple_stampValue fun n hn => lt_trans (hsafe.entryStamp n hn) (by decide),
      simple_count (by omega), simple_texts _ _, trivial, trivial, fun _ h => by cases h⟩
  have hv : member (frameMeta page m) "v" = some (count 1) := rfl
  have hstatus : member (frameMeta page m) "status" = some (count page.status) := rfl
  have hheaders : member (frameMeta page m) "headers" = some (headerPairs page.headers) := rfl
  have hentry : member (frameMeta page m) "entryStamp" = some (stampValue m.entryStamp) := rfl
  have hstored : member (frameMeta page m) "storedAt" = some (count m.storedAt) := rfl
  obtain ⟨entries, hentries⟩ : ∃ entries, frameMeta page m = .obj entries := ⟨_, rfl⟩
  rw [decodeFrame, encodeFrame, if_neg (by omega), if_neg (by omega), hinfo, hparse, hbody]
  rw [hentries] at hv hstatus hheaders hentry hstored ⊢
  dsimp only
  rw [hv, hstatus, hheaders, hentry, hstored, Option.bind_some, asNumber_one,
    if_neg (not_not.mpr rfl),
    Option.bind_some, asNumber_count hsafe.status, Option.filter_some,
    if_pos (show isList (headerPairs page.headers) = true from rfl), Option.bind_some,
    asNumber_stampValue hsafe.entryStamp, Option.bind_some, asNumber_count hsafe.storedAt]
  rfl

end Brust.Frames
