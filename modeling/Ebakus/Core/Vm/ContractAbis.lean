/-
# The ABIs of the two Ebakus precompiles

The system contract and the database contract decode their call data against
fixed ABI texts. `abi.JSON` parses each text into a table of methods; the
parse of these constants cannot fail, and the tables below are its result:
each method's name, its input types and its selector, the first four bytes of
the Keccak-256 hash of the signature written beside it. The texts themselves
are also returned verbatim by `getAbiForAddress`.
-/

import Ebakus.Accounts.Abi

namespace Ebakus.Core.Vm

open Ebakus.Accounts.Abi

/-- `SystemContractABI`. -/
def SystemContractABI : String :=
  "\n".intercalate [
    "[",
    "\x7b",
    "  \"type\": \"function\",",
    "  \"name\": \"stake\",",
    "  \"inputs\": [",
    "    \x7b",
    "      \"name\": \"amount\",",
    "      \"type\": \"uint64\"",
    "    \x7d",
    "  ],",
    "  \"outputs\": [],",
    "  \"stateMutability\": \"nonpayable\"",
    "\x7d,\x7b",
    "  \"type\": \"function\",",
    "  \"name\": \"getStaked\",",
    "  \"inputs\": [],",
    "  \"outputs\": [",
    "    \x7b",
    "      \"name\": \"staked\",",
    "      \"type\": \"uint64\"",
    "    \x7d",
    "  ],",
    "  \"constant\": true,",
    "  \"payable\": false,",
    "  \"stateMutability\": \"view\"",
    "\x7d,\x7b",
    "  \"type\": \"function\",",
    "  \"name\": \"unstake\",",
    "  \"inputs\": [",
    "    \x7b",
    "      \"name\": \"amount\",",
    "      \"type\": \"uint64\"",
    "    \x7d",
    "  ],",
    "  \"outputs\": [],",
    "  \"stateMutability\": \"nonpayable\"",
    "\x7d,\x7b",
    "  \"type\": \"function\",",
    "  \"name\": \"claim\",",
    "  \"inputs\": [],",
    "  \"outputs\": [],",
    "  \"stateMutability\": \"nonpayable\"",
    "\x7d,\x7b",
    "  \"type\": \"function\",",
    "  \"name\": \"vote\",",
    "  \"inputs\": [",
    "    \x7b",
    "      \"name\": \"addresses\",",
    "      \"type\": \"address[]\"",
    "    \x7d",
    "  ],",
    "  \"outputs\": [],",
    "  \"stateMutability\": \"nonpayable\"",
    "\x7d,\x7b",
    "  \"type\": \"function\",",
    "  \"name\": \"unvote\",",
    "  \"inputs\": [],",
    "  \"outputs\": [],",
    "  \"stateMutability\": \"nonpayable\"",
    "\x7d,\x7b",
    "  \"type\": \"function\",",
    "  \"name\": \"electEnable\",",
    "  \"inputs\": [",
    "    \x7b",
    "      \"name\": \"enable\",",
    "      \"type\": \"bool\"",
    "    \x7d",
    "  ],",
    "  \"outputs\": [],",
    "  \"stateMutability\": \"nonpayable\"",
    "\x7d,\x7b",
    "  \"type\": \"function\",",
    "  \"name\": \"storeAbiForAddress\",",
    "  \"inputs\": [",
    "    \x7b",
    "      \"name\": \"address\",",
    "      \"type\": \"address\"",
    "    \x7d,",
    "    \x7b",
    "      \"name\": \"abi\",",
    "      \"type\": \"string\"",
    "    \x7d",
    "  ],",
    "  \"outputs\": [],",
    "  \"stateMutability\": \"nonpayable\"",
    "\x7d,\x7b",
    "  \"type\": \"function\",",
    "  \"name\": \"getAbiForAddress\",",
    "  \"inputs\": [",
    "    \x7b",
    "      \"name\": \"address\",",
    "      \"type\": \"address\"",
    "    \x7d",
    "  ],",
    "  \"outputs\": [",
    "    \x7b",
    "      \"name\": \"abi\",",
    "      \"type\": \"string\"",
    "    \x7d",
    "  ],",
    "  \"constant\": true,",
    "  \"payable\": false,",
    "  \"stateMutability\": \"view\"",
    "\x7d]"]

/-- `SystemContractTablesABI`. -/
def SystemContractTablesABI : String :=
  "\n".intercalate [
    "[",
    "\x7b",
    "  \"type\": \"table\",",
    "  \"name\": \"Witnesses\",",
    "  \"inputs\": [",
    "    \x7b",
    "      \"name\": \"Id\",",
    "      \"type\": \"address\"",
    "    \x7d,",
    "    \x7b",
    "      \"name\": \"Stake\",",
    "      \"type\": \"uint64\"",
    "    \x7d,",
    "    \x7b",
    "      \"name\": \"Flags\",",
    "      \"type\": \"uint64\"",
    "    \x7d",
    "  ]",
    "\x7d,\x7b",
    "  \"type\": \"table\",",
    "  \"name\": \"Claimable\",",
    "  \"inputs\": [",
    "    \x7b",
    "      \"name\": \"Id\",",
    "      \"type\": \"bytes28\"",
    "    \x7d,",
    "    \x7b",
    "      \"name\": \"Amount\",",
    "      \"type\": \"uint64\"",
    "    \x7d,",
    "    \x7b",
    "      \"name\": \"Timestamp\",",
    "      \"type\": \"uint64\"",
    "    \x7d",
    "  ]",
    "\x7d,\x7b",
    "  \"type\": \"table\",",
    "  \"name\": \"Delegations\",",
    "  \"inputs\": [",
    "    \x7b",
    "      \"name\": \"Id\",",
    "      \"type\": \"bytes40\"",
    "    \x7d",
    "  ]",
    "\x7d,\x7b",
    "  \"type\": \"table\",",
    "  \"name\": \"ContractAbi\",",
    "  \"inputs\": [",
    "    \x7b",
    "      \"name\": \"Id\",",
    "      \"type\": \"bytes\"",
    "    \x7d,",
    "    \x7b",
    "      \"name\": \"Abi\",",
    "      \"type\": \"string\"",
    "    \x7d",
    "  ]",
    "\x7d]"]

/-- `DBABI`. -/
def DBABI : String :=
  "\n".intercalate [
    "[",
    "\x7b",
    "  \"type\": \"function\",",
    "  \"name\": \"createTable\",",
    "  \"inputs\": [",
    "    \x7b",
    "      \"name\": \"tableName\",",
    "      \"type\": \"string\"",
    "    \x7d,",
    "    \x7b",
    "      \"name\": \"indexes\",",
    "      \"type\": \"string\"",
    "    \x7d,",
    "    \x7b",
    "      \"name\": \"abi\",",
    "      \"type\": \"string\"",
    "    \x7d",
    "  ],",
    "  \"outputs\": [],",
    "  \"stateMutability\": \"nonpayable\"",
    "\x7d,\x7b",
    "  \"type\": \"function\",",
    "  \"name\": \"insertObj\",",
    "  \"inputs\": [",
    "    \x7b",
    "      \"name\": \"tableName\",",
    "      \"type\": \"string\"",
    "    \x7d,",
    "    \x7b",
    "      \"name\": \"data\",",
    "      \"type\": \"bytes\"",
    "    \x7d",
    "  ],",
    "  \"outputs\": [",
    "    \x7b",
    "      \"type\": \"bool\"",
    "    \x7d",
    "  ],",
    "  \"stateMutability\": \"nonpayable\"",
    "\x7d,\x7b",
    "  \"type\": \"function\",",
    "  \"name\": \"deleteObj\",",
    "  \"inputs\": [",
    "    \x7b",
    "      \"name\": \"tableName\",",
    "      \"type\": \"string\"",
    "    \x7d,",
    "    \x7b",
    "      \"name\": \"id\",",
    "      \"type\": \"bytes\"",
    "    \x7d",
    "  ],",
    "  \"outputs\": [",
    "    \x7b",
    "      \"type\": \"bool\"",
    "    \x7d",
    "  ],",
    "  \"stateMutability\": \"nonpayable\"",
    "\x7d,\x7b",
    "  \"type\": \"function\",",
    "  \"name\": \"get\",",
    "  \"inputs\": [",
    "    \x7b",
    "      \"name\": \"tableName\",",
    "      \"type\": \"string\"",
    "    \x7d,",
    "    \x7b",
    "      \"name\": \"whereClause\",",
    "      \"type\": \"string\"",
    "    \x7d,",
    "    \x7b",
    "      \"name\": \"orderClause\",",
    "      \"type\": \"string\"",
    "    \x7d",
    "  ],",
    "  \"outputs\": [",
    "    \x7b",
    "      \"type\": \"bytes\"",
    "    \x7d",
    "  ],",
    "  \"stateMutability\": \"nonpayable\"",
    "\x7d,\x7b",
    "  \"type\": \"function\",",
    "  \"name\": \"select\",",
    "  \"inputs\": [",
    "    \x7b",
    "      \"name\": \"tableName\",",
    "      \"type\": \"string\"",
    "    \x7d,",
    "    \x7b",
    "      \"name\": \"whereClause\",",
    "      \"type\": \"string\"",
    "    \x7d,",
    "    \x7b",
    "      \"name\": \"orderClause\",",
    "      \"type\": \"string\"",
    "    \x7d",
    "  ],",
    "  \"outputs\": [",
    "    \x7b",
    "      \"type\": \"bytes32\"",
    "    \x7d",
    "  ],",
    "  \"stateMutability\": \"nonpayable\"",
    "\x7d,\x7b",
    "  \"type\": \"function\",",
    "  \"name\": \"next\",",
    "  \"inputs\": [",
    "    \x7b",
    "      \"type\": \"bytes32\"",
    "    \x7d",
    "  ],",
    "  \"outputs\": [",
    "    \x7b",
    "      \"type\": \"bytes\"",
    "    \x7d",
    "  ],",
    "  \"stateMutability\": \"nonpayable\"",
    "\x7d]"]

/-- The methods of `SystemContractABI` with their selectors. -/
def SystemContractMethods : List Method := [
  ⟨"stake", [.uint64], [58, 41, 219, 174]⟩,                    -- stake(uint64)
  ⟨"getStaked", [], [197, 154, 191, 159]⟩,                      -- getStaked()
  ⟨"unstake", [.uint64], [210, 154, 184, 122]⟩,                 -- unstake(uint64)
  ⟨"claim", [], [78, 113, 217, 45]⟩,                            -- claim()
  ⟨"vote", [.slice .address], [237, 8, 19, 41]⟩,                -- vote(address[])
  ⟨"unvote", [], [49, 116, 182, 137]⟩,                          -- unvote()
  ⟨"electEnable", [.bool], [224, 161, 234, 150]⟩,               -- electEnable(bool)
  ⟨"storeAbiForAddress", [.address, .string], [15, 194, 254, 184]⟩, -- storeAbiForAddress(address,string)
  ⟨"getAbiForAddress", [.address], [31, 34, 121, 96]⟩]          -- getAbiForAddress(address)

/-- The methods of `DBABI` with their selectors. -/
def DBMethods : List Method := [
  ⟨"createTable", [.string, .string, .string], [86, 0, 75, 106]⟩, -- createTable(string,string,string)
  ⟨"insertObj", [.string, .bytes], [12, 215, 75, 54]⟩,          -- insertObj(string,bytes)
  ⟨"deleteObj", [.string, .bytes], [221, 188, 251, 99]⟩,        -- deleteObj(string,bytes)
  ⟨"get", [.string, .string, .string], [4, 246, 31, 90]⟩,       -- get(string,string,string)
  ⟨"select", [.string, .string, .string], [6, 32, 19, 147]⟩,    -- select(string,string,string)
  ⟨"next", [.fixedBytes 32], [2, 211, 175, 91]⟩]                -- next(bytes32)

end Ebakus.Core.Vm
