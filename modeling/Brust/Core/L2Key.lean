import Brust.Core.PageKey
import Brust.Support.Framing

/-!
# Core — keys of the shared tier

`L2Key::of`: the namespace and the build, and the hash of a page's key.  The hashed text is the
prefix, the method, the path and the sorted query with a NUL after each but the last; the last three
are free of NUL, so they end the text whatever the prefix holds (`preimage_inj`), and no two pages
of two builds share a key (`l2_key_inj`).
-/

namespace Brust.Core

open Brust.Routing

/-! ### The key -/

/-- `computeBuildId`: 16 hex digits. -/
structure BuildId where
  text : String
  length : text.toList.length = 16
  hex : ∀ d ∈ text.toList, IsHex d

structure L2Config where
  keyspace : String
  buildId : BuildId

/-- What is hashed of a page's key. -/
def preimage (k : CacheKey) : List UInt8 :=
  [k.keyPrefix, k.method, k.path, k.sortedQuery].zipIdx.flatMap fun part =>
    (if 0 < part.2 then [0] else []) ++ utf8 part.1

/-- `L2Key::of`; `blake3` is the hash in hex. -/
def l2Key (blake3 : List UInt8 → String) (cfg : L2Config) (k : CacheKey) : String :=
  cfg.keyspace ++ ":" ++ cfg.buildId.text ++ ":p:" ++ blake3 (preimage k)

/-! ### Equal keys -/

/-- The parts of a key that a request target makes. -/
structure CacheKey.NulFree (k : CacheKey) : Prop where
  method : '\x00' ∉ k.method.toList
  path : '\x00' ∉ k.path.toList
  sortedQuery : '\x00' ∉ k.sortedQuery.toList

theorem utf8_inj {s t : String} (h : utf8 s = utf8 t) : s = t := by
  have hbytes : s.toList.utf8Encode = t.toList.utf8Encode := congrArg List.toByteArray h
  rw [String.utf8Encode_toList, String.utf8Encode_toList] at hbytes
  exact String.toByteArray_inj.mp hbytes

/-- The hashed bytes are those of a text. -/
theorem preimage_eq (k : CacheKey) : preimage k = utf8 (String.ofList (k.keyPrefix.toList ++
    '\x00' :: k.method.toList ++ '\x00' :: k.path.toList ++ '\x00' :: k.sortedQuery.toList)) := by
  have hnul : String.utf8EncodeChar '\x00' = [0] := by decide
  simp [preimage, utf8, hnul]

/-- **The hashed text is read from its end**: the query, the path and the method are after the last
three NULs, and what is left is the prefix. -/
theorem preimage_inj {k k' : CacheKey} (hk : k.NulFree) (hk' : k'.NulFree)
    (h : preimage k = preimage k') : k = k' := by
  rw [preimage_eq, preimage_eq] at h
  have htext := String.ofList_inj.mp (utf8_inj h)
  obtain ⟨htext, hquery⟩ := append_cons_inj_right hk.sortedQuery hk'.sortedQuery htext
  obtain ⟨htext, hpath⟩ := append_cons_inj_right hk.path hk'.path htext
  obtain ⟨hstart, hmethod⟩ := append_cons_inj_right hk.method hk'.method htext
  obtain ⟨keyPrefix, method, path, sortedQuery⟩ := k
  rw [CacheKey.mk.injEq]
  exact ⟨String.toList_inj.mp hstart, String.toList_inj.mp hmethod, String.toList_inj.mp hpath,
    String.toList_inj.mp hquery⟩

/-- The last two colons of a key are those of the page's mark. -/
theorem l2Key_toList (blake3 : List UInt8 → String) (cfg : L2Config) (k : CacheKey) :
    (l2Key blake3 cfg k).toList = cfg.keyspace.toList ++ ':' :: cfg.buildId.text.toList ++
      ':' :: ['p'] ++ ':' :: (blake3 (preimage k)).toList := by
  simp [l2Key]

/-- **Equal keys of the shared tier are of one build and one page**, whatever the prefix holds. -/
theorem l2_key_inj (blake3 : List UInt8 → String) (hash : Function.Injective blake3)
    (hhex : ∀ bytes, ∀ d ∈ (blake3 bytes).toList, IsHex d) (cfg cfg' : L2Config) (k k' : CacheKey)
    (hk : k.NulFree) (hk' : k'.NulFree) (h : l2Key blake3 cfg k = l2Key blake3 cfg' k') :
    cfg = cfg' ∧ k.method = k'.method ∧ k.path = k'.path ∧ k.sortedQuery = k'.sortedQuery ∧
      k.keyPrefix = k'.keyPrefix := by
  have hcolon : ∀ bytes, ':' ∉ (blake3 bytes).toList := fun bytes hmem =>
    absurd (hhex bytes _ hmem) (by decide)
  have hid : ∀ b : BuildId, ':' ∉ b.text.toList := fun b hmem => absurd (b.hex _ hmem) (by decide)
  have htext := congrArg String.toList h
  rw [l2Key_toList, l2Key_toList] at htext
  obtain ⟨htext, hhash⟩ := append_cons_inj_right (hcolon _) (hcolon _) htext
  obtain ⟨htext, -⟩ := append_cons_inj_right (by decide) (by decide) htext
  obtain ⟨hspace, hbuild⟩ := append_cons_inj_right (hid _) (hid _) htext
  have hcfg : cfg = cfg' := by
    obtain ⟨keyspace, id, length, hex⟩ := cfg
    obtain ⟨keyspace', id', length', hex'⟩ := cfg'
    obtain rfl := String.toList_inj.mp hspace
    obtain rfl := String.toList_inj.mp hbuild
    rfl
  obtain rfl := preimage_inj hk hk' (hash (String.toList_inj.mp hhash))
  exact ⟨hcfg, rfl, rfl, rfl, rfl⟩

/-- One page however its URL is spelled; and a tenant whose prefix spells the end of another page's
text has a key of its own. -/
theorem l2_key_inj_spelled :
    let cfg : L2Config := ⟨"shop", "0123456789abcdef", rfl, isHex_of_all rfl⟩
    let hex := fun bytes => String.ofList (hexText bytes)
    (buildCacheKey "GET" "/caf%c3%a9" "t").path = (buildCacheKey "GET" "/café" "t").path ∧
      l2Key hex cfg (buildCacheKey "GET" "/p" "t\x00GET\x00/p") ≠
        l2Key hex cfg (buildCacheKey "GET" "/p" "t") := by
  intro cfg hex
  have hinj : Function.Injective hex := fun _ _ he => hexText_inj (String.ofList_inj.mp he)
  have hhex : ∀ bytes, ∀ d ∈ (hex bytes).toList, IsHex d := fun bytes d hd =>
    @isHex_of_mem_hexText d bytes (by rwa [String.toList_ofList] at hd)
  constructor
  · have hfree : (buildCacheKey "GET" "/caf%c3%a9" "t").NulFree :=
      ⟨by decide +kernel, by decide +kernel, by decide +kernel⟩
    have hsame : buildCacheKey "GET" "/café" "t" = buildCacheKey "GET" "/caf%c3%a9" "t" := by
      decide +kernel
    have hfree' : (buildCacheKey "GET" "/café" "t").NulFree := by rwa [hsame]
    exact (l2_key_inj hex hinj hhex cfg cfg _ _ hfree hfree'
      (congrArg (l2Key hex cfg) hsame.symm)).2.2.1
  · intro h
    have hfree : ∀ keyPrefix, (buildCacheKey "GET" "/p" keyPrefix).NulFree := fun keyPrefix =>
      ⟨by change '\x00' ∉ "GET".toList; decide,
        by change '\x00' ∉ (buildCacheKey "GET" "/p" "").path.toList; decide,
        by change '\x00' ∉ (buildCacheKey "GET" "/p" "").sortedQuery.toList; decide⟩
    have hkey := l2_key_inj hex hinj hhex cfg cfg _ _ (hfree _) (hfree _) h
    exact absurd hkey.2.2.2.2 (by decide)

end Brust.Core
