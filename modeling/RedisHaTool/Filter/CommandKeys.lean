import RedisHaTool.Filter.KeyFilter

/-!
# The keys of a command

The table of key positions of `filter/key_filter.rs`, and a command as the
filter is asked about it. The filter is not asked where a command's keys are; it
is handed one at a time. Which keys a command has is Redis's to say, so here it is
a relation that may be any. The table is one: it leaves commands out, as `PFADD`,
and stops after a few keys where a command takes any number, as in `DEL`.
-/

namespace RedisHaTool.Filter

open Lib

/-- `COMMAND_KEY_POSITIONS`. Position 0 is the command itself, so it stands for
no key. -/
def commandKeyTable : List (Text × List Nat) :=
  [("APPEND".toList, [1]), ("BITCOUNT".toList, [1]), ("BITFIELD".toList, [1]),
   ("BITOP".toList, [2, 3, 4]), ("BITPOS".toList, [1]), ("DECR".toList, [1]),
   ("DECRBY".toList, [1]), ("GET".toList, [1]), ("GETBIT".toList, [1]),
   ("GETDEL".toList, [1]), ("GETEX".toList, [1]), ("GETRANGE".toList, [1]),
   ("GETSET".toList, [1]), ("INCR".toList, [1]), ("INCRBY".toList, [1]),
   ("INCRBYFLOAT".toList, [1]), ("MGET".toList, [1, 2, 3, 4]),
   ("MSET".toList, [1, 3, 5, 7]), ("MSETNX".toList, [1, 3, 5, 7]),
   ("PSETEX".toList, [1]), ("SET".toList, [1]), ("SETBIT".toList, [1]),
   ("SETEX".toList, [1]), ("SETNX".toList, [1]), ("SETRANGE".toList, [1]),
   ("STRLEN".toList, [1]), ("SUBSTR".toList, [1]), ("HDEL".toList, [1]),
   ("HEXISTS".toList, [1]), ("HGET".toList, [1]), ("HGETALL".toList, [1]),
   ("HINCRBY".toList, [1]), ("HINCRBYFLOAT".toList, [1]), ("HKEYS".toList, [1]),
   ("HLEN".toList, [1]), ("HMGET".toList, [1]), ("HMSET".toList, [1]),
   ("HRANDFIELD".toList, [1]), ("HSCAN".toList, [1]), ("HSET".toList, [1]),
   ("HSETNX".toList, [1]), ("HSTRLEN".toList, [1]), ("HVALS".toList, [1]),
   ("BLMOVE".toList, [1, 2]), ("BLMPOP".toList, [3]), ("BLPOP".toList, [1, 2]),
   ("BRPOP".toList, [1, 2]), ("BRPOPLPUSH".toList, [1, 2]),
   ("LINDEX".toList, [1]), ("LINSERT".toList, [1]), ("LLEN".toList, [1]),
   ("LMOVE".toList, [1, 2]), ("LMPOP".toList, [2]), ("LPOP".toList, [1]),
   ("LPOS".toList, [1]), ("LPUSH".toList, [1]), ("LPUSHX".toList, [1]),
   ("LRANGE".toList, [1]), ("LREM".toList, [1]), ("LSET".toList, [1]),
   ("LTRIM".toList, [1]), ("RPOP".toList, [1]), ("RPOPLPUSH".toList, [1, 2]),
   ("RPUSH".toList, [1]), ("RPUSHX".toList, [1]), ("SADD".toList, [1]),
   ("SCARD".toList, [1]), ("SDIFF".toList, [1, 2, 3]),
   ("SDIFFSTORE".toList, [1, 2, 3]), ("SINTER".toList, [1, 2, 3]),
   ("SINTERCARD".toList, [2]), ("SINTERSTORE".toList, [1, 2, 3]),
   ("SISMEMBER".toList, [1]), ("SMEMBERS".toList, [1]),
   ("SMISMEMBER".toList, [1]), ("SMOVE".toList, [1, 2]), ("SPOP".toList, [1]),
   ("SRANDMEMBER".toList, [1]), ("SREM".toList, [1]), ("SSCAN".toList, [1]),
   ("SUNION".toList, [1, 2, 3]), ("SUNIONSTORE".toList, [1, 2, 3]),
   ("ZADD".toList, [1]), ("ZCARD".toList, [1]), ("ZCOUNT".toList, [1]),
   ("ZDIFF".toList, [2]), ("ZDIFFSTORE".toList, [1]), ("ZINCRBY".toList, [1]),
   ("ZINTER".toList, [2]), ("ZINTERCARD".toList, [2]),
   ("ZINTERSTORE".toList, [1]), ("ZLEXCOUNT".toList, [1]),
   ("ZMSCORE".toList, [1]), ("ZPOPMAX".toList, [1]), ("ZPOPMIN".toList, [1]),
   ("ZRANDMEMBER".toList, [1]), ("ZRANGE".toList, [1]),
   ("ZRANGEBYLEX".toList, [1]), ("ZRANGEBYSCORE".toList, [1]),
   ("ZRANK".toList, [1]), ("ZREM".toList, [1]), ("ZREMRANGEBYLEX".toList, [1]),
   ("ZREMRANGEBYRANK".toList, [1]), ("ZREMRANGEBYSCORE".toList, [1]),
   ("ZREVRANGE".toList, [1]), ("ZREVRANGEBYLEX".toList, [1]),
   ("ZREVRANGEBYSCORE".toList, [1]), ("ZREVRANK".toList, [1]),
   ("ZSCAN".toList, [1]), ("ZSCORE".toList, [1]), ("ZUNION".toList, [2]),
   ("ZUNIONSTORE".toList, [1]), ("XACK".toList, [1]), ("XADD".toList, [1]),
   ("XAUTOCLAIM".toList, [1]), ("XCLAIM".toList, [1]), ("XDEL".toList, [1]),
   ("XGROUP".toList, [1]), ("XINFO".toList, [1]), ("XLEN".toList, [1]),
   ("XPENDING".toList, [1]), ("XRANGE".toList, [1]), ("XREAD".toList, [3]),
   ("XREADGROUP".toList, [6]), ("XREVRANGE".toList, [1]), ("XSETID".toList, [1]),
   ("XTRIM".toList, [1]), ("COPY".toList, [1, 2]), ("DEL".toList, [1, 2, 3]),
   ("DUMP".toList, [1]), ("EXISTS".toList, [1, 2, 3]), ("EXPIRE".toList, [1]),
   ("EXPIREAT".toList, [1]), ("EXPIRETIME".toList, [1]), ("KEYS".toList, [1]),
   ("MIGRATE".toList, [1]), ("MOVE".toList, [1]), ("OBJECT".toList, [1]),
   ("PEXPIRE".toList, [1]), ("PEXPIREAT".toList, [1]),
   ("PEXPIRETIME".toList, [1]), ("PERSIST".toList, [1]), ("PSCAN".toList, [1]),
   ("PTTL".toList, [1]), ("RENAME".toList, [1, 2]), ("RENAMENX".toList, [1, 2]),
   ("RESTORE".toList, [1]), ("SCAN".toList, [1]), ("SORT".toList, [1]),
   ("SORT_RO".toList, [1]), ("TOUCH".toList, [1, 2, 3]), ("TTL".toList, [1]),
   ("TYPE".toList, [1]), ("UNLINK".toList, [1, 2, 3]), ("WAIT".toList, [0]),
   ("EVAL".toList, [0]), ("EVALSHA".toList, [0]), ("FCALL".toList, [0]),
   ("FCALL_RO".toList, [0]), ("EXEC".toList, [0]), ("DISCARD".toList, [0]),
   ("MULTI".toList, [0]), ("PING".toList, [0]), ("SELECT".toList, [0]),
   ("FLUSHDB".toList, [0]), ("FLUSHALL".toList, [0])]

/-- `command_key_positions`, of a name in upper case. -/
def commandKeyPositions (cmd : Text) : Option (List Nat) :=
  (commandKeyTable.find? fun entry => decide (entry.1 = cmd)).map Prod.snd

/-- `to_ascii_uppercase` -/
def toUpper (bs : Bytes) : Bytes := bs.map fun b => if 97 ≤ b ∧ b ≤ 122 then b - 32 else b

/-- The name by which the filter is asked about a command. -/
def commandName (words : List Bytes) : Option Text := (words.head?.map toUpper).bind fromUtf8

/-- What a command has at the positions of the table. -/
def commandKeys (words : List Bytes) : List Bytes :=
  (((commandName words).bind commandKeyPositions).getD []).filterMap fun i =>
    if i = 0 then none else words[i]?

/-- The filter of the configuration drops a command, asked about with this key
and this database. -/
def FilterConfig.FiltersOut (config : FilterConfig) (db : Nat) (cmd : Text)
    (key : Option Bytes) : Prop :=
  ∃ filter n, RedisKeyFilter.fromConfig config = some filter ∧ UInt32.toNat n = db ∧
    filter.filterCmdKey cmd key n = true

/-- It drops the command for its name or its database, or for one of its keys,
`hasKey` telling what the keys of a command are. -/
def FilterConfig.FiltersCommand (hasKey : List Bytes → Bytes → Prop) (config : FilterConfig)
    (db : Nat) (words : List Bytes) : Prop :=
  ∃ cmd, commandName words = some cmd ∧
    (config.FiltersOut db cmd none ∨ ∃ key, hasKey words key ∧ config.FiltersOut db cmd (some key))

end RedisHaTool.Filter
